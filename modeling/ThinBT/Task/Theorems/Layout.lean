import ThinBT.Task.Theorems.Steps
import ThinBT.Scheduler.Theorems.Outcome

namespace ThinBT

-- An assembler that was initialised for a chunk. Its base is null or the place of the chunk in a file
-- of the given size.
structure ChunkAssembler.Assembles (a : ChunkAssembler) (e : ChunkEntry δ) (fileSize : Nat) :
    Prop where
  base         : a.base = none ∨ (a.base = some e.offset.toNat ∧
    e.offset.toNat + e.length.toNat ≤ fileSize ∧ e.length.toNat ≤ 1024 * 1024)
  chunkSize    : a.chunkSize = e.length
  subBlockSize : a.subBlockSize = .ofNat ThinBT.subBlockSize
  totalSlots   : a.totalSlots = slotCount e.length (.ofNat ThinBT.subBlockSize)
  maskLength   : a.completedMask.length = ((a.totalSlots + 31) / 32).toNat

namespace ChunkAssembler

variable {a a' : ChunkAssembler} {e : ChunkEntry δ}

theorem Assembles.of_sameFrame (h : a.Assembles e n) (hf : a'.SameFrame a) : a'.Assembles e n where
  base         := hf.base ▸ h.base
  chunkSize    := hf.chunkSize ▸ h.chunkSize
  subBlockSize := hf.subBlockSize ▸ h.subBlockSize
  totalSlots   := hf.totalSlots ▸ h.totalSlots
  maskLength   := by rw [hf.maskLength, hf.totalSlots, h.maskLength]

theorem Assembles.base_eq (h : a.Assembles e n) (hb : a.base = some b) :
    b = e.offset.toNat ∧ e.offset.toNat + e.length.toNat ≤ n ∧ e.length.toNat ≤ 1024 * 1024 := by
  cases h.base
  case inl hn => rw [hn] at hb; cases hb
  case inr hs => exact ⟨Option.some.inj (hb.symm.trans hs.left), hs.right⟩

theorem Assembles.slot_eq (h : a.Assembles e n) : a.slot begin = begin.toNat / ThinBT.subBlockSize := by
  rw [slot, h.subBlockSize, UInt32.toNat_div]
  rfl

theorem Assembles.totalSlots_le (h : a.Assembles e n) : a.totalSlots.toNat ≤ 2 ^ 18 := by
  have hs : (UInt32.ofNat ThinBT.subBlockSize).toNat = 16384 := rfl
  rw [h.totalSlots, slotCount, UInt32.toNat_div, hs]
  have hl := (e.length + .ofNat ThinBT.subBlockSize - 1).toNat_lt
  omega

-- The mask has at most 31 bits more than there are slots.
theorem Assembles.size_le (h : a.Assembles e n) :
    Bitset.size a.completedMask ≤ a.totalSlots.toNat + 31 := by
  have ht := h.totalSlots_le
  have hs : Bitset.size a.completedMask ≤ 32 * a.completedMask.length := Bitset.size_le
  have h31 : (31 : UInt32).toNat = 31 := rfl
  have h32 : (32 : UInt32).toNat = 32 := rfl
  rw [h.maskLength, UInt32.toNat_div, UInt32.toNat_add, h31, h32] at hs
  omega

theorem assembles_init_none {n : Nat} :
    (init none e.length (.ofNat ThinBT.subBlockSize)).Assembles e n :=
  ⟨.inl rfl, rfl, rfl, rfl, List.length_replicate⟩

theorem assembles_init_some (hf : e.offset.toNat + e.length.toNat ≤ n)
    (hm : e.length.toNat ≤ 1024 * 1024) :
    (init (some e.offset.toNat) e.length (.ofNat ThinBT.subBlockSize)).Assembles e n :=
  ⟨.inr ⟨rfl, hf, hm⟩, rfl, rfl, rfl, List.length_replicate⟩

end ChunkAssembler

namespace Task

variable {δ : Type} {τ τ' : Task δ}

theorem sizesOf_eq_some {seed : TSeedFile δ} {c : Nat} (h : seed.chunks[c]? = some e) :
    (sizesOf seed)[c]? = some e.length := by
  rw [sizesOf, List.getElem?_map, h, Option.map_some]

-- A verify task for a chunk of the seed.
structure Verifies (seed : TSeedFile δ) (v : VerifyTask δ) (e : ChunkEntry δ) : Prop where
  chunk  : seed.chunks[v.chunkIdx]? = some e
  data   : v.data = none ∨ v.data = some e.offset.toNat
  length : v.length = e.length
  hash   : v.expectedHash = e.sha256

structure Layout (τ : Task δ) : Prop where
  fileLength  : τ.file.length = τ.seed.fileSize.toNat
  count       : τ.assemblers.length = τ.seed.chunks.length
  assembles   : ∀ {c : Nat} {a e}, τ.assemblers[c]? = some a → τ.seed.chunks[c]? = some e →
    a.Assembles e τ.file.length
  verifies    : ∀ v ∈ τ.verifyTasks, ∃ e, Verifies τ.seed v e
  results     : ∀ r ∈ τ.results, r.chunkIdx < τ.seed.chunks.length
  totalChunks : τ.scheduler.totalChunks = τ.seed.chunks.length

-- The part of the layout that does not depend on the file.
structure Indexed (τ : Task δ) : Prop where
  verifies    : ∀ v ∈ τ.verifyTasks, v.chunkIdx < τ.seed.chunks.length
  results     : ∀ r ∈ τ.results, r.chunkIdx < τ.seed.chunks.length
  totalChunks : τ.scheduler.totalChunks = τ.seed.chunks.length

theorem Layout.indexed (h : τ.Layout) : τ.Indexed where
  results     := h.results
  totalChunks := h.totalChunks
  verifies v hv := by
    have ⟨e, he⟩ := h.verifies v hv
    exact (List.getElem?_eq_some_iff.mp he.chunk).choose

theorem Layout.exists_entry (h : τ.Layout) {c : Nat} (ha : τ.assemblers[c]? = some a) :
    ∃ e, τ.seed.chunks[c]? = some e ∧ a.Assembles e τ.file.length := by
  have hc : c < τ.seed.chunks.length := h.count ▸ (List.getElem?_eq_some_iff.mp ha).choose
  exact ⟨_, List.getElem?_eq_getElem hc, h.assembles ha (List.getElem?_eq_getElem hc)⟩

theorem getElem?_setAssembler_of_ne {c d : Nat} (h : d ≠ c) :
    (τ.setAssembler d a).assemblers[c]? = τ.assemblers[c]? :=
  List.getElem?_set_ne h

theorem eq_of_getElem?_setAssembler {c : Nat} (h : (τ.setAssembler c a).assemblers[c]? = some b) :
    b = a := by
  simp only [setAssembler, List.getElem?_set_self'] at h
  obtain ⟨_, _, rfl⟩ := Option.map_eq_some_iff.mp h
  rfl

theorem Layout.setWorker (h : τ.Layout) : (τ.setWorker w k).Layout :=
  ⟨h.fileLength, h.count, h.assembles, h.verifies, h.results, h.totalChunks⟩

theorem Layout.setFile (h : τ.Layout) (hl : l.length = τ.file.length) :
    { τ with file := l }.Layout :=
  ⟨hl.trans h.fileLength, h.count, fun ha he => hl ▸ h.assembles ha he, h.verifies, h.results,
    h.totalChunks⟩

theorem Layout.setAssembler (h : τ.Layout) {c : Nat} (ha : τ.assemblers[c]? = some a)
    (hf : a'.SameFrame a) : (τ.setAssembler c a').Layout where
  fileLength  := h.fileLength
  count       := by simpa [Task.setAssembler] using h.count
  verifies    := h.verifies
  results     := h.results
  totalChunks := h.totalChunks
  assembles   := by
    intro d b e hb he
    have hc := (List.getElem?_eq_some_iff.mp ha).choose
    by_cases hd : c = d
    case pos =>
      subst hd
      obtain rfl : a' = b := by simpa [Task.setAssembler, hc] using hb
      exact (h.assembles ha he).of_sameFrame hf
    case neg => exact h.assembles (by simpa [Task.setAssembler, hd] using hb) he

theorem Layout.enqueueVerify (h : τ.Layout) (ha : a.Assembles e n)
    (he : τ.seed.chunks[t.chunkIdx.toNat]? = some e) : (τ.enqueueVerify a e t).Layout where
  fileLength  := h.fileLength
  count       := h.count
  assembles   := h.assembles
  results     := h.results
  totalChunks := h.totalChunks
  verifies v hv := by
    cases List.mem_append.mp hv
    case inl hv => exact h.verifies v hv
    case inr hv =>
      obtain rfl := List.mem_singleton.mp hv
      exact ⟨e, he, ha.base.imp id (·.left), ha.chunkSize, rfl⟩

theorem Layout.ioStep (h : τ.Layout) (hs : IoStep τ w τ') : τ'.Layout := by
  cases hs
  case skip          => exact h
  case reject        => exact h.setWorker
  case write         => exact (h.setFile List.length_overwrite).setWorker
  case mark ha hm    => exact (h.setAssembler ha hm.frame).setWorker
  case count ha _    => exact (h.setAssembler ha ChunkAssembler.countDown_frame).setWorker
  case complete q t a e hk ha hp he =>
    have hl := (h.setAssembler ha ChunkAssembler.countDown_frame).setWorker (w := w) (k := ⟨q, .idle⟩)
    exact hl.enqueueVerify (h.assembles ha he) he

theorem IoStep.frame (hs : IoStep τ w τ') {c : Nat} (ha : τ'.assemblers[c]? = some a') :
    ∃ a, τ.assemblers[c]? = some a ∧ a'.SameFrame a := by
  have set {d : Nat} {b b' : ChunkAssembler} (hb : τ.assemblers[d]? = some b)
      (hf : b'.SameFrame b) (ha : (τ.setAssembler d b').assemblers[c]? = some a') :
      ∃ a, τ.assemblers[c]? = some a ∧ a'.SameFrame a := by
    by_cases hc : d = c
    case pos => subst hc; exact ⟨b, hb, eq_of_getElem?_setAssembler ha ▸ hf⟩
    case neg => exact ⟨a', (getElem?_setAssembler_of_ne hc).symm.trans ha, .refl⟩
  cases hs
  case skip | reject | write => exact ⟨a', ha, .refl⟩
  case mark hb hm            => exact set hb hm.frame ha
  case count hb _            => exact set hb ChunkAssembler.countDown_frame ha
  case complete hb _ _       => exact set hb ChunkAssembler.countDown_frame ha

theorem IoStep.length_workers (hs : IoStep τ w τ') : τ'.workers.length = τ.workers.length := by
  cases hs
  case skip => rfl
  all_goals exact List.length_set

theorem Layout.setScheduler (h : τ.Layout) (hσ : σ.totalChunks = τ.scheduler.totalChunks) :
    { τ with scheduler := σ }.Layout :=
  ⟨h.fileLength, h.count, h.assembles, h.verifies, h.results, hσ.trans h.totalChunks⟩

theorem Layout.tick {std : StdSort} (h : τ.Layout) : (τ.tick std now dead).Layout :=
  ⟨h.fileLength, h.count, h.assembles, h.verifies, List.forall_mem_nil _,
    Scheduler.totalChunks_run.trans h.totalChunks⟩

theorem mem_tickOps : o ∈ τ.tickOps now ↔ o = .tick now ∨
    (∃ r ∈ τ.results, r.passed = false ∧ o = .onVerifyFailed r.chunkIdx) ∨
    (τ.passedMsgs ≠ [] ∧ o = .processCompletions τ.passedMsgs) := by
  have hf : o ∈ (τ.results.filter (!·.passed)).map (Scheduler.Op.onVerifyFailed ·.chunkIdx) ↔
      ∃ r ∈ τ.results, r.passed = false ∧ o = .onVerifyFailed r.chunkIdx := by
    simp only [List.mem_map, List.mem_filter, Bool.not_eq_true', and_assoc, @eq_comm _ o]
  rw [tickOps, List.mem_append, List.mem_append, List.mem_singleton, hf, or_assoc]
  refine or_congr_right (or_congr_right ?_)
  by_cases hm : τ.passedMsgs = [] <;> simp [hm]

theorem mem_passedMsgs : m ∈ τ.passedMsgs ↔
    ∃ r ∈ τ.results, r.passed ∧ m = ⟨r.chunkIdx, r.winningPeerSlot⟩ := by
  simp only [passedMsgs, List.mem_map, List.mem_filter, and_assoc, eq_comm]

theorem any_passedMsgs :
    τ.passedMsgs.any (·.chunkIdx = c) ↔ ∃ r ∈ τ.results, r.chunkIdx = c ∧ r.passed := by
  simp only [List.any_eq_true, mem_passedMsgs, decide_eq_true_eq]
  constructor
  · rintro ⟨m, ⟨r, hr, hp, rfl⟩, he⟩
    exact ⟨r, hr, he, hp⟩
  · rintro ⟨r, hr, he, hp⟩
    exact ⟨_, ⟨r, hr, hp, rfl⟩, he⟩

-- The calls of the sessions are the right ones, whatever their arguments are.
def Calls : Op → Prop
  | .session op => sessionCall op
  | _           => True

instance : (op : Op) → Decidable (Calls op)
  | .session op => inferInstanceAs (Decidable (sessionCall op))
  | .piece .. | .io _ | .verify _ | .tick .. => .isTrue trivial

theorem Legal.calls (h : τ.Legal op) : Calls op := by
  cases op
  case session => exact h.left
  all_goals trivial

-- Chunks are closed and opened again by ticks.
theorem exists_tick (hl : Calls op) (ho : o ∈ τ.schedulerOps op)
    (hc : o.completes c ∨ o.reopens c) : ∃ now dead, op = .tick now dead ∧ o ∈ τ.tickOps now := by
  cases op
  case tick now dead => exact ⟨now, dead, rfl, ho⟩
  case session op =>
    obtain rfl := List.mem_singleton.mp ho
    have hl : sessionCall o := hl
    cases o <;> obtain hc | hc := hc <;> first | cases hc | cases hl
  case piece =>
    rw [List.mem_singleton.mp ho] at hc
    obtain hc | hc := hc <;> cases hc
  case io | verify => cases ho

theorem passed_of_completes (hl : Calls op) (ho : o ∈ τ.schedulerOps op) (hc : o.completes c) :
    (∃ now dead, op = .tick now dead) ∧ ∃ r ∈ τ.results, r.chunkIdx = c ∧ r.passed := by
  obtain ⟨now, dead, rfl, ho⟩ := exists_tick hl ho (.inl hc)
  obtain rfl | ⟨_, _, _, rfl⟩ | ⟨_, rfl⟩ := mem_tickOps.mp ho
  case inl     => cases hc
  case inr.inl => cases hc
  case inr.inr => exact ⟨⟨now, dead, rfl⟩, any_passedMsgs.mp hc⟩

theorem failed_of_reopens (hl : Calls op) (ho : o ∈ τ.schedulerOps op) (hc : o.reopens c) :
    (∃ now dead, op = .tick now dead) ∧ ∃ r ∈ τ.results, r.chunkIdx = c ∧ r.passed = false := by
  obtain ⟨now, dead, rfl, ho⟩ := exists_tick hl ho (.inr hc)
  obtain rfl | ⟨r, hr, hp, rfl⟩ | ⟨_, rfl⟩ := mem_tickOps.mp ho
  case inl     => cases hc
  case inr.inl => exact ⟨⟨now, dead, rfl⟩, r, hr, of_decide_eq_true hc, hp⟩
  case inr.inr => cases hc

-- The calls of a step are legal.
theorem Indexed.legal_schedulerOps {std : StdSort} (h : τ.Indexed) (hl : τ.Legal op) :
    Scheduler.AllOps std Scheduler.Legal τ.scheduler (τ.schedulerOps op) := by
  cases op
  case session op  => exact ⟨hl.right, trivial⟩
  case piece       => exact ⟨trivial, trivial⟩
  case io | verify => trivial
  case tick now dead =>
    refine Scheduler.allOps_of_forall fun o ho σ ht => ?_
    have hr : ∀ r ∈ τ.results, r.chunkIdx < σ.totalChunks := ht ▸ h.totalChunks ▸ h.results
    obtain rfl | ⟨r, hm, _, rfl⟩ | ⟨_, rfl⟩ := mem_tickOps.mp ho
    case inl     => trivial
    case inr.inl => exact hr r hm
    case inr.inr =>
      intro m hm
      obtain ⟨r, hr', _, rfl⟩ := mem_passedMsgs.mp hm
      exact hr r hr'

theorem inRange_of_sessionCall {σ : Scheduler} (h : sessionCall op) : σ.InRange op := by
  cases op
  case onPeerAdded slot speed => exact .inr ⟨slot, speed, rfl⟩
  all_goals first | exact .inl trivial | cases h

theorem Indexed.inRange_schedulerOps {std : StdSort} (h : τ.Indexed) (hl : Calls op) :
    Scheduler.AllOps std Scheduler.InRange τ.scheduler (τ.schedulerOps op) := by
  have legal (hl : τ.Legal op) : Scheduler.AllOps std Scheduler.InRange τ.scheduler _ :=
    (h.legal_schedulerOps hl).mono fun _ _ => .inl
  cases op
  case session => exact ⟨inRange_of_sessionCall hl, trivial⟩
  all_goals exact legal trivial

-- The complete chunks after a tick.
theorem Indexed.closed_tick {std : StdSort} (h : τ.Indexed) (hc : c < τ.seed.chunks.length)
    (now : UInt64) (dead : Bool) :
    (τ.tick std now dead).scheduler.closed c ↔
      (τ.scheduler.closed c ∧ ∀ r ∈ τ.results, r.chunkIdx = c → r.passed) ∨
      ∃ r ∈ τ.results, r.chunkIdx = c ∧ r.passed := by
  have hl : Calls (.tick now dead) := trivial
  constructor
  · intro hd
    obtain ⟨hd, hn⟩ | ⟨o, ho, hd⟩ := Scheduler.of_closed_run (h.totalChunks ▸ hc) hd
    case inr => exact .inr (passed_of_completes hl ho hd).right
    case inl =>
      refine .inl ⟨hd, fun r hr he => eq_true_of_ne_false fun hf => ?_⟩
      have ho := hn _ (mem_tickOps.mpr (.inr (.inl ⟨r, hr, hf, rfl⟩)))
      rw [Scheduler.Op.reopens, decide_eq_true he] at ho
      cases ho
  · rintro (⟨hd, hn⟩ | hr)
    case inl =>
      refine Scheduler.closed_run (h.inRange_schedulerOps hl) (fun o ho => ?_) hd
      refine eq_false_of_ne_true fun ho' => ?_
      obtain ⟨_, r, hr, he, hp⟩ := failed_of_reopens hl ho ho'
      rw [hn r hr he] at hp
      cases hp
    case inr =>
      have hm := any_passedMsgs.mpr hr
      have hne : τ.passedMsgs ≠ [] := fun he => by simp [he] at hm
      change (Scheduler.run std τ.scheduler (τ.tickOps now)).closed c
      rw [tickOps, if_neg hne, Scheduler.run, Actions.exec_append]
      refine Eq.trans Scheduler.closed_processCompletions ?_
      rw [hm, Bool.or_true]

section Step

variable [DecidableEq δ] {sha256 : List UInt8 → δ} {std : StdSort}

theorem Layout.step (h : τ.Layout) (hs : τ.step sha256 std op = some τ') : τ'.Layout := by
  cases op
  case session op =>
    cases hs
    exact h.setScheduler Scheduler.totalChunks_exec
  case piece t now =>
    cases hs
    refine Layout.setScheduler (τ := τ.dispatch t) ?_ Scheduler.totalChunks_exec
    exact ⟨h.fileLength, h.count, h.assembles, h.verifies, h.results, h.totalChunks⟩
  case io w => exact h.ioStep (ioStep_cases hs)
  case verify k =>
    obtain rfl | ⟨v, base, hv, _, rfl⟩ := verifyStep_cases hs
    case inl => exact h
    case inr =>
      refine ⟨h.fileLength, h.count, h.assembles, ?_, ?_, h.totalChunks⟩
      · exact fun v hv => h.verifies v (List.mem_of_mem_eraseIdx hv)
      · intro r hr
        cases List.mem_append.mp hr
        case inl hr => exact h.results r hr
        case inr hr =>
          rw [List.mem_singleton.mp hr]
          exact h.indexed.verifies v (List.mem_of_getElem? hv)
  case tick now dead =>
    cases hs
    exact h.tick

theorem seed_step (hs : τ.step sha256 std op = some τ') : τ'.seed = τ.seed := by
  cases op
  case io w => exact (ioStep_cases hs).seed
  case verify k =>
    obtain rfl | ⟨v, base, _, _, rfl⟩ := verifyStep_cases hs
    all_goals rfl
  all_goals cases hs; rfl

theorem Indexed.step (h : τ.Indexed) (hs : τ.step sha256 std op = some τ') : τ'.Indexed := by
  cases op
  case session op | piece =>
    cases hs
    exact ⟨h.verifies, h.results, Scheduler.totalChunks_exec.trans h.totalChunks⟩
  case io w =>
    cases ioStep_cases hs
    case complete he =>
      refine ⟨fun v hv => ?_, h.results, h.totalChunks⟩
      cases List.mem_append.mp hv
      case inl hv => exact h.verifies v hv
      case inr hv =>
        rw [List.mem_singleton.mp hv]
        exact (List.getElem?_eq_some_iff.mp he).choose
    all_goals exact ⟨h.verifies, h.results, h.totalChunks⟩
  case verify k =>
    obtain rfl | ⟨v, base, hv, _, rfl⟩ := verifyStep_cases hs
    case inl => exact h
    case inr =>
      refine ⟨fun v hv => h.verifies v (List.mem_of_mem_eraseIdx hv), fun r hr => ?_, h.totalChunks⟩
      cases List.mem_append.mp hr
      case inl hr => exact h.results r hr
      case inr hr =>
        rw [List.mem_singleton.mp hr]
        exact h.verifies v (List.mem_of_getElem? hv)
  case tick =>
    cases hs
    exact ⟨h.verifies, List.forall_mem_nil _, Scheduler.totalChunks_run.trans h.totalChunks⟩

theorem initialBitfield_step (hs : τ.step sha256 std op = some τ') :
    τ'.initialBitfield = τ.initialBitfield := by
  cases op
  case io w => exact (ioStep_cases hs).initialBitfield
  case verify k =>
    obtain rfl | ⟨v, base, _, _, rfl⟩ := verifyStep_cases hs
    all_goals rfl
  all_goals cases hs; rfl

-- Only I/O workers write to the file.
theorem file_step (hs : τ.step sha256 std op = some τ') (hi : ¬∃ w, op = .io w) :
    τ'.file = τ.file := by
  cases op
  case io w => exact absurd ⟨w, rfl⟩ hi
  case verify k =>
    obtain rfl | ⟨v, base, _, _, rfl⟩ := verifyStep_cases hs
    all_goals rfl
  all_goals cases hs; rfl

theorem scheduler_step (hs : τ.step sha256 std op = some τ') :
    τ'.scheduler = Scheduler.run std τ.scheduler (τ.schedulerOps op) := by
  cases op
  case io w => exact (ioStep_cases hs).scheduler
  case verify k =>
    obtain rfl | ⟨v, base, _, _, rfl⟩ := verifyStep_cases hs
    all_goals rfl
  all_goals cases hs; rfl

-- A step only completes chunks that have passed their verification.
theorem Layout.of_closed_step (h : τ.Layout) (hl : Calls op)
    (hs : τ.step sha256 std op = some τ') (hc : c < τ.seed.chunks.length)
    (hd : τ'.scheduler.closed c) :
    τ.scheduler.closed c ∨ ∃ r ∈ τ.results, r.chunkIdx = c ∧ r.passed := by
  rw [scheduler_step hs] at hd
  obtain hd | ⟨o, ho, hd⟩ := Scheduler.of_closed_run (h.totalChunks ▸ hc) hd
  case inl => exact .inl hd.left
  case inr => exact .inr (passed_of_completes hl ho hd).right

-- The complete chunks after a step, unless one of them fails its verification.
theorem Indexed.closed_step (h : τ.Indexed) (hl : Calls op) (hs : τ.step sha256 std op = some τ')
    (hc : c < τ.seed.chunks.length)
    (hf : (∃ now dead, op = .tick now dead) →
      ∀ r ∈ τ.results, r.passed = false → τ.scheduler.closed r.chunkIdx = false) :
    τ'.scheduler.closed c ↔ τ.scheduler.closed c ∨
      (∃ now dead, op = .tick now dead) ∧ ∃ r ∈ τ.results, r.chunkIdx = c ∧ r.passed := by
  rw [scheduler_step hs]
  constructor
  · intro hd
    obtain hd | ⟨o, ho, hd⟩ := Scheduler.of_closed_run (h.totalChunks ▸ hc) hd
    case inl => exact .inl hd.left
    case inr => exact .inr (passed_of_completes hl ho hd)
  · rintro (hd | ⟨⟨now, dead, rfl⟩, hr⟩)
    case inl =>
      refine Scheduler.closed_run (h.inRange_schedulerOps hl) (fun o ho => ?_) hd
      refine eq_false_of_ne_true fun hr => ?_
      obtain ⟨ht, r, hm, rfl, hp⟩ := failed_of_reopens hl ho hr
      rw [hf ht r hm hp] at hd
      cases hd
    case inr => exact (h.closed_tick hc now dead).mpr (.inr hr)

theorem length_workers_step (hs : τ.step sha256 std op = some τ') :
    τ'.workers.length = τ.workers.length := by
  cases op
  case io w  => exact (ioStep_cases hs).length_workers
  case piece => cases hs; exact List.length_modify ..
  case verify k =>
    obtain rfl | ⟨v, base, _, _, rfl⟩ := verifyStep_cases hs
    all_goals rfl
  all_goals cases hs; rfl

theorem frame_step (hs : τ.step sha256 std op = some τ') {c : Nat}
    (ha : τ'.assemblers[c]? = some a') : ∃ a, τ.assemblers[c]? = some a ∧ a'.SameFrame a := by
  cases op
  case io w => exact (ioStep_cases hs).frame ha
  case verify k =>
    obtain rfl | ⟨v, base, _, _, rfl⟩ := verifyStep_cases hs
    all_goals exact ⟨a', ha, .refl⟩
  all_goals cases hs; exact ⟨a', ha, .refl⟩

end Step

end Task
end ThinBT
