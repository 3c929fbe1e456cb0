import ThinBT.Task.Theorems.Downloads
import ThinBT.Task.Theorems.Recovery

namespace ThinBT.Task

section Definitions

variable {δ : Type}

-- The number of bytes in the chunks that the scheduler holds as complete.
def completeBytes (τ : Task δ) : Nat :=
  τ.seed.bytesIn fun c => τ.scheduler.chunkStates[c]? = some .complete

-- The step drains a result for a chunk that was there when the task started.
def drains (τ : Task δ) (c : Nat) : Op → Bool
  | .tick .. => τ.initialBitfield.getD c false && τ.results.any (·.chunkIdx = c)
  | _        => false

-- No result that is drained is for a chunk that was there when the task started.
def Unresumed (τ : Task δ) : Op → Prop
  | .tick .. => ∀ r ∈ τ.results, τ.initialBitfield.getD r.chunkIdx false = false
  | _        => True

instance {τ : Task δ} : (op : Op) → Decidable (Unresumed τ op)
  | .tick .. => inferInstanceAs (Decidable (∀ r ∈ τ.results,
      τ.initialBitfield.getD r.chunkIdx false = false))
  | .session _ | .piece .. | .io _ | .verify _ => .isTrue trivial

end Definitions

variable {δ : Type} {τ τ' : Task δ} {D D' : Nat → Bool}

theorem Layout.closed_iff (h : τ.Layout) (hc : c < τ.seed.chunks.length) :
    τ.scheduler.closed c ↔ τ.scheduler.chunkStates[c]? = some .complete := by
  have ht : τ.scheduler.chunkStates.length = τ.seed.chunks.length := h.totalChunks
  rw [Scheduler.closed_iff, List.getElem?_eq_none_iff, ht, or_iff_right (Nat.not_le.mpr hc)]

theorem Layout.completeBytes_eq (h : τ.Layout) :
    τ.completeBytes = τ.seed.bytesIn τ.scheduler.closed := by
  refine TSeedFile.bytesIn_congr fun c hc => ?_
  rw [Bool.eq_iff_iff, decide_eq_true_eq, h.closed_iff hc]

theorem unresumed_iff (h : τ.Layout) :
    τ.Unresumed op ↔ ∀ c < τ.seed.chunks.length, τ.drains c op = false := by
  cases op
  case tick =>
    constructor
    · intro hu c _
      refine eq_false_of_ne_true fun hd => ?_
      obtain ⟨hb, hr⟩ := Bool.and_eq_true_iff.mp hd
      obtain ⟨r, hr, he⟩ := List.any_eq_true.mp hr
      rw [← of_decide_eq_true he, hu r hr] at hb
      cases hb
    · intro hd r hr
      refine eq_false_of_ne_true fun hb => ?_
      have hn := hd r.chunkIdx (h.results r hr)
      rw [drains, hb, Bool.true_and, List.any_eq_true.mpr ⟨r, hr, decide_eq_true rfl⟩] at hn
      cases hn
  all_goals exact iff_of_true trivial fun _ _ => rfl

-- The bytes that a task has counted are those of its complete chunks, and again those of the chunks
-- in `D`: they were there when the task started, and were verified all the same.
structure Progress (D : Nat → Bool) (τ : Task δ) : Prop where
  layout  : τ.Layout
  ledger  : ∀ c, τ.Ledger c
  settled : ∀ c < τ.seed.chunks.length, τ.scheduler.closed c →
    τ.initialBitfield.getD c false ∨ τ.Settled c
  drained : ∀ c < τ.seed.chunks.length, D c → τ.initialBitfield.getD c false ∧ τ.Settled c
  resumed : ∀ c < τ.seed.chunks.length, τ.initialBitfield.getD c false → D c = false →
    τ.scheduler.closed c
  bytes   : τ.bytesDone = .ofNat (τ.seed.bytesIn τ.scheduler.closed + τ.seed.bytesIn D)

theorem Opened.progress (h : τ.Opened) (hc : τ.Credited) : τ.Progress fun _ => false where
  layout  := h.layout
  ledger  := fun _ => h.fresh.ledger
  settled := fun c hl hd => .inl (hc.closed c hl ▸ hd)
  drained := fun c _ hd => by cases hd
  resumed := fun c hl hb _ => (hc.closed c hl).trans hb
  bytes   := by
    rw [TSeedFile.bytesIn_false, hc.bytes, Nat.add_zero, TSeedFile.bytesIn_congr hc.closed]

-- Each chunk has at most one result.
theorem nodup_results (h : ∀ c, τ.Ledger c) : (τ.results.map (·.chunkIdx)).Nodup := by
  refine List.nodup_iff_count_le_one.mpr fun c => ?_
  have ho : _ + _ ≤ 1 := (h c).once
  rw [List.count_eq_countP, List.countP_map]
  refine (Nat.le_of_eq (List.countP_congr fun r _ => ?_)).trans (Nat.le_of_add_left_le ho)
  simp

theorem creditBytes_eq (hl : τ.Layout) (hg : ∀ c, τ.Ledger c) : τ.creditBytes = τ.bytesDone +
    .ofNat (τ.seed.bytesIn fun c => τ.passedMsgs.any (·.chunkIdx = c)) := by
  have size (m : ChunkCompleteMsg) :
      ((τ.seed.chunks[m.chunkIdx]?).elim 0 (·.length.toUInt64)).toNat = τ.seed.sizeAt m.chunkIdx := by
    rw [TSeedFile.sizeAt]
    cases τ.seed.chunks[m.chunkIdx]?
    case none   => rfl
    case some e => exact UInt32.toNat_toUInt64 e.length
  have hn : (τ.passedMsgs.map (·.chunkIdx)).Nodup := by
    refine (nodup_results hg).sublist ?_
    rw [passedMsgs, List.map_map]
    exact List.filter_sublist.map _
  have hm (c : Nat) : τ.passedMsgs.any (·.chunkIdx = c) =
      (false || decide (c ∈ τ.passedMsgs.map (·.chunkIdx))) := by
    rw [Bool.eq_iff_iff]
    simp
  have hs : τ.seed.bytesIn (fun c => false || decide (c ∈ τ.passedMsgs.map (·.chunkIdx))) = _ :=
    TSeedFile.bytesIn_or_mem hn fun c hc => by
      obtain ⟨m, hm, rfl⟩ := List.mem_map.mp hc
      obtain ⟨r, hr, _, rfl⟩ := mem_passedMsgs.mp hm
      exact ⟨hl.results r hr, rfl⟩
  rw [creditBytes, List.foldl_add_eq_ofNat, funext hm, hs, TSeedFile.bytesIn_false, Nat.zero_add,
    List.map_map]
  simp only [size, Function.comp_def]

theorem Progress.bytesDone_iff (h : τ.Progress D) (hp : τ.seed.Partitioned) :
    τ.bytesDone.toNat = τ.completeBytes ↔ ∀ c < τ.seed.chunks.length, D c = false := by
  have hc : τ.seed.bytesIn τ.scheduler.closed ≤ _ := hp.bytesIn_le
  have hD : τ.seed.bytesIn D ≤ _ := hp.bytesIn_le
  have hf := τ.seed.fileSize.toNat_lt
  rw [h.layout.completeBytes_eq, h.bytes, ← hp.bytesIn_eq_zero_iff, UInt64.toNat_ofNat']
  omega

theorem Progress.congr (h : τ.Progress D) (hD : ∀ c < τ.seed.chunks.length, D' c = D c) :
    τ.Progress D' where
  layout  := h.layout
  ledger  := h.ledger
  settled := h.settled
  drained := fun c hc hd => h.drained c hc (hD c hc ▸ hd)
  resumed := fun c hc hb hd => h.resumed c hc hb (hD c hc ▸ hd)
  bytes   := by rw [h.bytes, TSeedFile.bytesIn_congr hD]

-- All bytes are counted exactly if all chunks are complete.
theorem Progress.fileSize_le_iff (h : τ.Progress fun _ => false) (hp : τ.seed.Partitioned) :
    τ.seed.fileSize ≤ τ.bytesDone ↔ ∀ c < τ.seed.chunks.length, τ.scheduler.closed c := by
  have hc : τ.seed.bytesIn τ.scheduler.closed ≤ _ := hp.bytesIn_le
  rw [UInt64.le_iff_toNat_le, h.bytes, TSeedFile.bytesIn_false, Nat.add_zero, hp.toNat_bytesIn,
    ← hp.bytesIn_eq_iff]
  omega

-- A chunk with a result is open, unless it was there when the task started.
theorem Progress.open_of_result (h : τ.Progress D) (hr : r ∈ τ.results)
    (hb : τ.initialBitfield.getD r.chunkIdx false = false) :
    τ.scheduler.closed r.chunkIdx = false := by
  refine eq_false_of_ne_true fun hd => ?_
  obtain hi | hs := h.settled _ (h.layout.results r hr) hd
  case inl => rw [hb] at hi; cases hi
  case inr => exact hs.not_mem_results r hr rfl

-- What a tick adds to the count of a chunk.
theorem Progress.count_tick {std : StdSort} (h : τ.Progress D) (hc : c < τ.seed.chunks.length) :
    ((τ.tick std now dead).scheduler.closed c).toNat +
        (D c || τ.drains c (.tick now dead)).toNat =
      (τ.scheduler.closed c).toNat + (D c).toNat +
        (τ.passedMsgs.any (·.chunkIdx = c)).toNat := by
  have ht : (τ.tick std now dead).scheduler.closed c ↔ _ := h.layout.indexed.closed_tick hc now dead
  by_cases hr : ∃ r ∈ τ.results, r.chunkIdx = c
  case neg =>
    have hn : τ.results.any (·.chunkIdx = c) = false := by simpa using hr
    have hm : τ.passedMsgs.any (·.chunkIdx = c) = false :=
      eq_false_of_ne_true fun hm => hr ((any_passedMsgs.mp hm).imp fun _ h => ⟨h.left, h.right.left⟩)
    have hd : (τ.tick std now dead).scheduler.closed c = τ.scheduler.closed c := by
      rw [Bool.eq_iff_iff, ht]
      constructor
      · rintro (⟨hd, _⟩ | ⟨r, hr', he, _⟩)
        case inl => exact hd
        case inr => exact absurd ⟨r, hr', he⟩ hr
      · exact fun hd => .inl ⟨hd, fun r hr' he => absurd ⟨r, hr', he⟩ hr⟩
    rw [hd, hm, drains, hn, Bool.and_false, Bool.or_false]
    rfl
  case pos =>
    -- The chunk is in flight: it has not been drained, and is only complete if it was from the start.
    obtain ⟨r, hr, he⟩ := hr
    have hs : ¬τ.Settled c := fun hs => hs.not_mem_results r hr he
    have hD : D c = false := eq_false_of_ne_true fun hd => hs (h.drained c hc hd).right
    have hb : τ.scheduler.closed c = τ.initialBitfield.getD c false := by
      rw [Bool.eq_iff_iff]
      exact ⟨fun hd => (h.settled c hc hd).resolve_right hs, fun hb => h.resumed c hc hb hD⟩
    have ha : τ.results.any (·.chunkIdx = c) = true :=
      List.any_eq_true.mpr ⟨r, hr, decide_eq_true he⟩
    have hm : τ.passedMsgs.any (·.chunkIdx = c) = r.passed := by
      rw [Bool.eq_iff_iff, any_passedMsgs]
      constructor
      · rintro ⟨r', hr', he', hp⟩
        exact (h.ledger c).eq_of_mem_results hr' hr he' he ▸ hp
      · exact fun hp => ⟨r, hr, he, hp⟩
    have hd : (τ.tick std now dead).scheduler.closed c = r.passed := by
      rw [Bool.eq_iff_iff, ht, ← any_passedMsgs, hm]
      exact ⟨fun hd => hd.elim (fun hd => hd.right r hr he) id, .inr⟩
    rw [hd, hm, hb, hD, drains, ha, Bool.and_true, Bool.false_or]
    exact Nat.add_comm ..

theorem Progress.tick {std : StdSort} (h : τ.Progress D) :
    (τ.tick std now dead).Progress fun c => D c || τ.drains c (.tick now dead) where
  layout  := h.layout.tick
  ledger  := fun c => (h.ledger c).tick
  settled := fun c hc hd => by
    obtain ⟨hd, _⟩ | ⟨r, hr, he, _⟩ := (h.layout.indexed.closed_tick hc now dead).mp hd
    case inl => exact (h.settled c hc hd).imp id (·.tick)
    case inr => exact .inr ((h.ledger c).settled_tick hr he)
  drained := fun c hc hd => by
    obtain hd | hd := Bool.or_eq_true_iff.mp hd
    case inl => exact (h.drained c hc hd).imp id (·.tick)
    case inr =>
      obtain ⟨hb, hr⟩ := Bool.and_eq_true_iff.mp hd
      obtain ⟨r, hr, he⟩ := List.any_eq_true.mp hr
      exact ⟨hb, (h.ledger c).settled_tick hr (of_decide_eq_true he)⟩
  resumed := fun c hc hb hd => by
    have hb : τ.initialBitfield.getD c false = true := hb
    obtain ⟨hd, hn⟩ := Bool.or_eq_false_iff.mp hd
    rw [drains, hb, Bool.true_and] at hn
    refine (h.layout.indexed.closed_tick hc now dead).mpr (.inl ⟨h.resumed c hc hb hd, ?_⟩)
    intro r hr he
    rw [List.any_eq_true.mpr ⟨r, hr, decide_eq_true he⟩] at hn
    cases hn
  bytes   := by
    change τ.creditBytes = _
    rw [creditBytes_eq h.layout h.ledger, h.bytes, ← UInt64.ofNat_add]
    congr 1
    exact (TSeedFile.bytesIn_add_congr fun c hc => h.count_tick hc).symm

section Steps

variable [DecidableEq δ] {sha256 : List UInt8 → δ} {std : StdSort}

-- Only ticks report progress.
theorem report_step (hs : τ.step sha256 std op = some τ')
    (ht : ¬∃ now dead, op = .tick now dead) :
    τ'.bytesDone = τ.bytesDone ∧ τ'.state = τ.state := by
  cases op
  case tick now dead => exact absurd ⟨now, dead, rfl⟩ ht
  case io w          => cases ioStep_cases hs <;> exact ⟨rfl, rfl⟩
  case verify k =>
    obtain rfl | ⟨v, base, _, _, rfl⟩ := verifyStep_cases hs
    all_goals exact ⟨rfl, rfl⟩
  all_goals cases hs; exact ⟨rfl, rfl⟩

theorem Progress.step (h : τ.Progress D) (hl : Calls op) (hs : τ.step sha256 std op = some τ') :
    τ'.Progress fun c => D c || τ.drains c op := by
  by_cases ht : ∃ now dead, op = .tick now dead
  case pos =>
    obtain ⟨now, dead, rfl⟩ := ht
    obtain rfl := Option.some.inj hs
    exact h.tick
  case neg =>
    have hd : (fun c => D c || τ.drains c op) = D := by
      funext c
      cases op
      case tick now dead => exact absurd ⟨now, dead, rfl⟩ ht
      all_goals exact Bool.or_false _
    have hc {c : Nat} (hc : c < τ.seed.chunks.length) :
        τ'.scheduler.closed c = τ.scheduler.closed c := by
      rw [Bool.eq_iff_iff, h.layout.indexed.closed_step hl hs hc fun h => absurd h ht]
      exact or_iff_left fun h => ht h.left
    have hS {c : Nat} (hS : τ.Settled c) : τ'.Settled c := hS.step ⟨h.layout, h.ledger c⟩ hs
    have hb := initialBitfield_step hs
    have he := seed_step hs
    rw [hd]
    refine ⟨h.layout.step hs, fun c => (h.ledger c).step h.layout hs, ?_, ?_, ?_, ?_⟩
    all_goals rw [he]
    · intro c hl hd
      rw [hb]
      exact (h.settled c hl (hc hl ▸ hd)).imp id hS
    · intro c hl hd
      rw [hb]
      exact (h.drained c hl hd).imp id hS
    · intro c hl
      rw [hb, hc hl]
      exact h.resumed c hl
    · rw [(report_step hs ht).left, h.bytes, TSeedFile.bytesIn_congr fun c => hc]

-- Without results for chunks that were there when the task started, every chunk counts once.
theorem Progress.step_unresumed (h : τ.Progress fun _ => false) (hl : Calls op)
    (hu : τ.Unresumed op) (hs : τ.step sha256 std op = some τ') : τ'.Progress fun _ => false := by
  refine (h.step hl hs).congr fun c hc => ?_
  rw [(unresumed_iff h.layout).mp hu c (seed_step hs ▸ hc)]
  rfl

-- Complete chunks stay complete then.
theorem Progress.closed_step (h : τ.Progress D) (hl : Calls op) (hu : τ.Unresumed op)
    (hs : τ.step sha256 std op = some τ') (hc : c < τ.seed.chunks.length)
    (hd : τ.scheduler.closed c) : τ'.scheduler.closed c := by
  refine (h.layout.indexed.closed_step hl hs hc ?_).mpr (.inl hd)
  rintro ⟨now, dead, rfl⟩ r hr _
  exact h.open_of_result hr (hu r hr)

-- The chunks that are drained along a run.
theorem Progress.run {ops : List Op} (h : τ.Progress D) (hl : ∀ op ∈ ops, Calls op)
    (hr : Machine.run (Task.step sha256 std) τ ops = some τ') :
    ∃ D', τ'.Progress D' ∧ τ'.seed = τ.seed ∧ (∀ c, D c → D' c) ∧
      (Machine.AllAt (Task.step sha256 std) Unresumed τ ops ↔
        ∀ c < τ.seed.chunks.length, D' c = D c) := by
  induction ops generalizing τ D
  case nil =>
    obtain rfl := Option.some.inj hr
    exact ⟨D, h, rfl, fun _ => id, iff_of_true trivial fun _ _ => rfl⟩
  case cons op ops hi =>
    obtain ⟨t, hs, hr⟩ := Machine.run_cons.mp hr
    have ⟨ho, hos⟩ := List.forall_mem_cons.mp hl
    obtain ⟨D', hD, he, hle, ha⟩ := hi (h.step ho hs) hos hr
    have hst := seed_step hs
    refine ⟨D', hD, he.trans hst, fun c hc => hle c (Bool.or_eq_true_iff.mpr (.inl hc)), ?_⟩
    rw [Machine.allAt_cons hs, ha, hst, unresumed_iff h.layout]
    constructor
    · rintro ⟨hn, hD'⟩ c hc
      rw [hD' c hc, hn c hc, Bool.or_false]
    · intro hD'
      have hn (c : Nat) (hc : c < τ.seed.chunks.length) : τ.drains c op = false := by
        refine eq_false_of_ne_true fun hd => ?_
        have hDc : D c := (hD' c hc).symm.trans (hle c (Bool.or_eq_true_iff.mpr (.inr hd)))
        cases op
        case tick =>
          obtain ⟨r, hr, he⟩ := List.any_eq_true.mp (Bool.and_eq_true_iff.mp hd).right
          exact (h.drained c hc hDc).right.not_mem_results r hr (of_decide_eq_true he)
        all_goals cases hd
      exact ⟨hn, fun c hc => by rw [hn c hc, Bool.or_false, hD' c hc]⟩

-- The bytes that a task has counted are those of its complete chunks exactly if no chunk that was
-- there when the task started has been verified. There are not more than the file has then.
theorem bytes_done_exact_iff {seed : TSeedFile δ} {ops : List Op}
    (h₀ : cmdAdd sha256 std seed existing hw speed order = some τ₀) (hp : seed.Partitioned)
    (hl : ∀ op ∈ ops, Calls op) (hr : Machine.run (step sha256 std) τ₀ ops = some τ) :
    (τ.bytesDone.toNat = τ.completeBytes ↔
      Machine.AllAt (step sha256 std) Unresumed τ₀ ops) ∧
    (Machine.AllAt (step sha256 std) Unresumed τ₀ ops →
      τ.bytesDone.toNat ≤ seed.fileSize.toNat) := by
  have hd : Downloads sha256 std τ₀ := .cmdAdd h₀
  obtain rfl := (cmdAdd_spec h₀).left
  obtain ⟨D, hD, he, _, ha⟩ := (hd.opened.progress (hd.credited hp)).run hl hr
  have hi : τ.bytesDone.toNat = τ.completeBytes ↔ _ :=
    (hD.bytesDone_iff (he ▸ hp)).trans (he ▸ ha.symm)
  refine ⟨hi, fun hu => ?_⟩
  rw [hi.mpr hu, ← he]
  have hp : τ.seed.Partitioned := he ▸ hp
  exact hp.bytesIn_le

end Steps

section Resumed

-- The first of two chunks is in the file already. Chunks are their own digests.
def resumedSeed : TSeedFile (List UInt8) where
  fileSize := 4
  config   := { minSize := 2, maxSize := 2 }
  chunks   := [⟨0, 2, [5, 6]⟩, ⟨2, 2, [7, 9]⟩]
  countLt  := by decide

def resumedStart : Task (List UInt8) :=
  (cmdAdd id .stable resumedSeed (some [5, 6, 0, 0]) 4 1000 [1, 0]).get (by decide +kernel)

-- A chunk arrives in one piece and is verified.
def delivery (c : UInt32) (data : List UInt8) (h : data.length ≤ maxMsgSize - 8) : List Op :=
  [.piece ⟨c, 0, 3, data, h⟩ 5, .io c.toNat, .io c.toNat, .io c.toNat, .verify 0, .tick 10 false]

def resumedCompleted : Task (List UInt8) :=
  (Machine.run (step id .stable) resumedStart (delivery 1 [7, 9] (by decide))).get
    (by decide +kernel)

theorem resumedCompleted_is_exact :
    resumedCompleted.bytesDone.toNat = resumedCompleted.completeBytes ∧
      resumedCompleted.bytesDone.toNat ≤ 4 := by
  have hp : resumedSeed.Partitioned := ⟨by decide, by decide, by decide, by decide⟩
  have h := bytes_done_exact_iff (Option.some_get _).symm hp
    (show ∀ op ∈ delivery 1 [7, 9] (by decide), Calls op by decide +kernel)
    (show Machine.run (step id .stable) resumedStart _ = some resumedCompleted from
      (Option.some_get _).symm)
  have ha : Machine.AllAt (step id .stable) Unresumed resumedStart
      (delivery 1 [7, 9] (by decide)) := by decide +kernel
  exact ⟨h.left.mpr ha, h.right ha⟩

-- A peer sends both chunks, although nobody has requested the first one. It is counted twice.
theorem resumed_chunk_is_counted_twice :
    resumedStart.initialBitfield = [true, false] ∧
      (Machine.run (step id .stable) resumedStart
          (delivery 0 [5, 6] (by decide) ++ delivery 1 [7, 9] (by decide))).map
        (fun τ => (τ.scheduler.chunkStates, τ.bytesDone, τ.seed.fileSize)) =
          some ([.complete, .complete], 6, 4) := by
  decide +kernel

end Resumed

end ThinBT.Task
