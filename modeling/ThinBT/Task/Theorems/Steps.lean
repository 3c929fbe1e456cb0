import ThinBT.Task.State

namespace ThinBT.Task

variable {δ : Type} {τ τ' : Task δ}

-- Everything that a step of an I/O worker can do.
inductive IoStep (τ : Task δ) (w : Nat) : Task δ → Prop
  | skip : IoStep τ w τ
  | reject :
    τ.workers[w]? = some ⟨t :: q, .idle⟩ → τ.assemblers[t.chunkIdx.toNat]? = some a →
    ¬a.accepts t.begin t.length → IoStep τ w (τ.setWorker w ⟨q, .idle⟩)
  | write :
    τ.workers[w]? = some ⟨t :: q, .idle⟩ → τ.assemblers[t.chunkIdx.toNat]? = some a →
    a.accepts t.begin t.length → a.base = some base →
    t.begin.toNat + t.data.length ≤ a.chunkSize.toNat →
    IoStep τ w ({ τ with file := τ.file.overwrite (base + t.begin.toNat) t.data }.setWorker w
      ⟨q, .written t⟩)
  | mark :
    τ.workers[w]? = some ⟨q, .written t⟩ → τ.assemblers[t.chunkIdx.toNat]? = some a →
    a.Marked (a.slot t.begin) a' first →
    IoStep τ w ((τ.setAssembler t.chunkIdx.toNat a').setWorker w
      ⟨q, if first then .marked t else .idle⟩)
  | count :
    τ.workers[w]? = some ⟨q, .marked t⟩ → τ.assemblers[t.chunkIdx.toNat]? = some a →
    a.pendingCount ≠ 1 →
    IoStep τ w ((τ.setAssembler t.chunkIdx.toNat a.countDown.1).setWorker w ⟨q, .idle⟩)
  | complete :
    τ.workers[w]? = some ⟨q, .marked t⟩ → τ.assemblers[t.chunkIdx.toNat]? = some a →
    a.pendingCount = 1 → τ.seed.chunks[t.chunkIdx.toNat]? = some e →
    IoStep τ w (((τ.setAssembler t.chunkIdx.toNat a.countDown.1).setWorker w ⟨q, .idle⟩).enqueueVerify
      a e t)

theorem ioStep_cases (h : τ.ioStep w = some τ') : IoStep τ w τ' := by
  unfold ioStep at h
  split at h
  case h_2 => cases h; exact .skip
  case h_1 k hk =>
    obtain ⟨q, stage⟩ := k
    cases stage
    case idle =>
      cases q
      case nil => cases h; exact .skip
      case cons t q =>
        simp only [Option.bind_eq_bind, Option.bind_eq_some_iff] at h
        obtain ⟨a, ha, h⟩ := h
        split at h
        case isFalse hn => cases h; exact .reject hk ha hn
        case isTrue hc =>
          obtain ⟨file, hf, h⟩ := Option.bind_eq_some_iff.mp h
          obtain ⟨base, hb, hl, rfl⟩ := ChunkAssembler.write_eq_some hf
          cases h
          exact .write hk ha hc hb hl
    case written t =>
      simp only [Option.bind_eq_bind, Option.bind_eq_some_iff] at h
      obtain ⟨a, ha, ⟨a', first⟩, hm, h⟩ := h
      cases h
      exact .mark hk ha (ChunkAssembler.mark_eq_some hm)
    case marked t =>
      simp only [Option.bind_eq_bind, Option.bind_eq_some_iff] at h
      obtain ⟨a, ha, e, he, h⟩ := h
      cases h
      by_cases hp : a.pendingCount = 1
      case pos =>
        rw [if_pos (show a.countDown.2 = true from decide_eq_true hp)]
        exact .complete hk ha hp he
      case neg =>
        rw [if_neg (show ¬a.countDown.2 = true by simpa [ChunkAssembler.countDown] using hp)]
        exact .count hk ha hp

section Verify

variable [DecidableEq δ] {sha256 : List UInt8 → δ}

theorem verifyStep_cases (h : τ.verifyStep sha256 k = some τ') :
    τ' = τ ∨ ∃ v base, τ.verifyTasks[k]? = some v ∧ v.data = some base ∧
      τ' = { τ with
        verifyTasks := τ.verifyTasks.eraseIdx k
        results     := τ.results ++ [⟨v.chunkIdx, v.winningPeerSlot,
          sha256 (τ.file.slice base v.length.toNat) = v.expectedHash⟩] } := by
  unfold verifyStep at h
  split at h
  case h_2 => exact .inl (Option.some.inj h).symm
  case h_1 v hv =>
    simp only [Option.bind_eq_bind, Option.bind_eq_some_iff] at h
    obtain ⟨base, hb, h⟩ := h
    exact .inr ⟨v, base, hv, hb, (Option.some.inj h).symm⟩

end Verify

theorem IoStep.seed (h : IoStep τ w τ') : τ'.seed = τ.seed := by
  cases h <;> rfl

theorem IoStep.scheduler (h : IoStep τ w τ') : τ'.scheduler = τ.scheduler := by
  cases h <;> rfl

theorem IoStep.initialBitfield (h : IoStep τ w τ') : τ'.initialBitfield = τ.initialBitfield := by
  cases h <;> rfl

theorem IoStep.results (h : IoStep τ w τ') : τ'.results = τ.results := by
  cases h <;> rfl

theorem IoStep.length_file (h : IoStep τ w τ') : τ'.file.length = τ.file.length := by
  cases h
  case write => exact List.length_overwrite
  all_goals rfl

end ThinBT.Task
