import ThinBT.Queue.Theorems.Ends
import ThinBT.Task.Verification
import ThinBT.Task.Theorems.Downloads

namespace ThinBT

namespace Task

variable {δ : Type} {τ τ' : Task δ}

-- The only stage of an I/O worker that writes is the one in which it copies a piece.
theorem IoStep.file_eq (h : IoStep τ w τ') (hn : τ.nextCopy w = none) : τ'.file = τ.file := by
  cases h
  case write hw ha hc hb _ =>
    simp only [nextCopy, hw, ha, hb, hc, Option.bind_eq_bind, Option.bind_some, if_true] at hn
    cases hn
  all_goals rfl

theorem Layout.withFile {file : List UInt8} (h : τ.Layout) (hf : file.length = τ.file.length) :
    Layout { τ with file } where
  fileLength  := hf.trans h.fileLength
  count       := h.count
  assembles   := hf ▸ h.assembles
  verifies    := h.verifies
  results     := h.results
  totalChunks := h.totalChunks

variable [DecidableEq δ] {sha256 : List UInt8 → δ} {std : StdSort}

theorem mem_results_step (ho : ∀ k, op ≠ .verify k) (hs : τ.step sha256 std op = some τ')
    (hr : r ∈ τ'.results) : r ∈ τ.results := by
  cases op
  case session | piece => cases hs; exact hr
  case io              => exact (ioStep_cases hs).results ▸ hr
  case tick            => cases hs; cases hr
  case verify k        => exact absurd rfl (ho k)

end Task

namespace Verifying

section Definitions

variable {δ : Type}

-- The results on their way from the workers to the scheduler.
def reported (x : Verifying δ) : List VerifyResult :=
  x.task.results ++ x.results.values ++ x.workers.filterMap (·.call.element) ++
    x.drainer.element.toList

-- The chunk is complete or has passed its verification.
def verified (x : Verifying δ) (c : Nat) : Bool :=
  x.task.scheduler.closed c || x.reported.any fun r => r.chunkIdx = c && r.passed

-- The byte is one that the worker has read of the chunk that it hashes.
def hasRead (pos : Nat) : VerifyWorker δ → Bool
  | .hashes v read => v.data.any fun base => base ≤ pos && pos < base + read.length
  | .reports _     => false

-- The byte is in a verified chunk, or a worker has read it.
def isProtected (x : Verifying δ) (pos : Nat) : Bool :=
  (List.range x.task.seed.chunks.length).any (fun c => x.verified c && x.task.seed.chunks[c]?.any
    fun e => e.offset.toNat ≤ pos && pos < e.offset.toNat + e.length.toNat) ||
  x.workers.any (hasRead pos)

-- The step writes no other byte into a verified chunk, or behind a worker that reads a chunk.
def KeepsVerified (x : Verifying δ) : Op → Prop
  | .copy w k => ∀ y ∈ x.nextByte w k, x.isProtected y.1 → x.task.file[y.1]? = some y.2
  | _         => True

instance {x : Verifying δ} : (op : Op) → Decidable (x.KeepsVerified op)
  | .copy w k => inferInstanceAs (Decidable (∀ y ∈ x.nextByte w k, x.isProtected y.1 →
      x.task.file[y.1]? = some y.2))
  | .session _ | .piece .. | .io _ | .take .. | .hash _ | .report .. | .drain | .tick .. =>
    .isTrue trivial

end Definitions

variable {δ : Type} {x x' : Verifying δ}

theorem mem_reported : r ∈ x.reported ↔ r ∈ x.task.results ∨ r ∈ x.results.values ∨
    (∃ k ∈ x.workers, k.call.element = some r) ∨ x.drainer.element = some r := by
  simp only [reported, List.mem_append, List.mem_filterMap, Option.mem_toList, or_assoc]

theorem verified_iff :
    x.verified c ↔ x.task.scheduler.closed c ∨ ∃ r ∈ x.reported, r.chunkIdx = c ∧ r.passed := by
  simp [verified]

theorem reported_start {τ : Task δ} : (start hw τ).reported = τ.results := by
  have hw : ((start hw τ).workers).filterMap (·.call.element) = [] := by
    rw [List.filterMap_eq_nil_iff]
    intro k hk
    rw [List.eq_of_mem_replicate hk]
    rfl
  rw [reported, hw]
  simp [start, ReaderWriterQueue.values_init, ReaderWriterQueue.Dequeue.element]

theorem Op.onTask_ne_verify {op : Op} (h : op.onTask = some o) (k : Nat) : o ≠ .verify k := by
  rintro rfl
  cases op <;> cases h

theorem Op.legal_onTask {op : Op} (h : op.onTask = some o) (hl : x.Legal op) : x.task.Legal o := by
  cases op <;> cases h
  case session => exact hl
  all_goals trivial

-- A write somewhere else does not change a verified chunk, or what has been read of a chunk.
theorem bytes_set (h : x.isProtected pos = false) (he : x.task.seed.chunks[c]? = some e)
    (hv : x.verified c) : e.bytes (x.task.file.set pos byte) = e.bytes x.task.file := by
  refine List.slice_set fun hin => Bool.eq_false_iff.mp (Bool.or_eq_false_iff.mp h).left ?_
  have hc : c ∈ List.range x.task.seed.chunks.length :=
    List.mem_range.mpr (List.getElem?_eq_some_iff.mp he).choose
  exact List.any_eq_true.mpr ⟨c, hc, by simp [hv, he, hin]⟩

theorem slice_set {read : List UInt8} (h : x.isProtected pos = false)
    (hk : .hashes v read ∈ x.workers) (hb : v.data = some base) :
    (x.task.file.set pos byte).slice base read.length = x.task.file.slice base read.length := by
  refine List.slice_set fun hin => Bool.eq_false_iff.mp (Bool.or_eq_false_iff.mp h).right ?_
  exact List.any_eq_true.mpr ⟨_, hk, by simp [hasRead, hb, hin]⟩

-- Everything that is verified is a chunk of the seed.
structure Placed (x : Verifying δ) : Prop where
  layout   : x.task.Layout
  reported : ∀ r ∈ x.reported, r.chunkIdx < x.task.seed.chunks.length
  hashes   : ∀ v read, .hashes v read ∈ x.workers → ∃ e, Task.Verifies x.task.seed v e

theorem Placed.start {τ : Task δ} (h : τ.Opened) : (start hw τ).Placed where
  layout       := h.layout
  reported     := reported_start ▸ h.layout.results
  hashes v _ h := by cases List.eq_of_mem_replicate h

variable [DecidableEq δ] {sha256 : List UInt8 → δ} {std : StdSort}

section Steps

-- Everything that a step can do.
inductive Step (sha256 : List UInt8 → δ) (std : StdSort) (x : Verifying δ) : Op → Verifying δ → Prop
  | stay {op : Op} : Step sha256 std x op x
  | task {op : Op} {o : Task.Op} {τ : Task δ} {m : MainThread} :
    op.onTask = some o → x.task.step sha256 std o = some τ →
    Step sha256 std x op { x with task := τ, mainThread := m }
  | io {w : Nat} {τ : Task δ} {cs : List (Option (List Nat))} :
    x.task.step sha256 std (.io w) = some τ →
    Step sha256 std x (.io w) { x with task := { τ with file := x.task.file }, copies := cs }
  | begins {w : Nat} {cs : List (Option (List Nat))} :
    Step sha256 std x (.io w) { x with copies := cs }
  | copy {w k pos : Nat} {byte : UInt8} {cs : List (Option (List Nat))} :
    x.nextByte w k = some (pos, byte) →
    Step sha256 std x (.copy w k)
      { x with task := { x.task with file := x.task.file.set pos byte }, copies := cs }
  | take {p k : Nat} {v : VerifyTask δ} :
    x.workers[p]? = some (.reports .idle) → x.task.verifyTasks[k]? = some v →
    Step sha256 std x (.take p k)
      ({ x with task := { x.task with verifyTasks := x.task.verifyTasks.eraseIdx k } }.setWorker p
        (.hashes v []))
  | read {p : Nat} {v : VerifyTask δ} {read : List UInt8} {base : Nat} {byte : UInt8} :
    x.workers[p]? = some (.hashes v read) → read.length < v.length.toNat → v.data = some base →
    x.task.file[base + read.length]? = some byte →
    Step sha256 std x (.hash p) (x.setWorker p (.hashes v (read ++ [byte])))
  | enqueue {p : Nat} {v : VerifyTask δ} {read : List UInt8} :
    x.workers[p]? = some (.hashes v read) → v.length.toNat ≤ read.length →
    x.results.innerEnqueue (v.result sha256 read) = some e →
    Step sha256 std x (.hash p) (x.setWorker p (.reports e))
  | report {p : Nat} {a : Bool} {q : ReaderWriterQueue VerifyResult} :
    x.workers[p]? = some (.reports e) → x.results.produce a e = some (q, e', events) →
    Step sha256 std x (.report p a) ({ x with results := q }.setWorker p (.reports e'))
  | tryDequeue :
    x.drainer = .idle → x.results.tryDequeue = some d →
    Step sha256 std x .drain { x with drainer := d, mainThread := .draining }
  | consume {q : ReaderWriterQueue VerifyResult} {m : MainThread} :
    x.drainer ≠ .idle → x.results.consume x.drainer = some (q, d, events) →
    Step sha256 std x .drain { x with
      task       := { x.task with results := x.task.results ++ events.filterMap Fifo.Event.popped }
      results    := q
      drainer    := d
      mainThread := m }

theorem step_io (hs : x.io w = some x') : Step sha256 std x (.io w) x' := by
  obtain ⟨τ, hτ, hs⟩ := Option.bind_eq_some_iff.mp hs
  split at hs
  case h_1 hn =>
    obtain rfl := Option.some.inj hs
    have hf := (Task.ioStep_cases hτ).file_eq hn
    have he : τ = { τ with file := x.task.file } := by rw [← hf]
    rw [he]
    exact .io hτ
  case h_2 => obtain rfl := Option.some.inj hs; exact .begins
  case h_3 => obtain rfl := Option.some.inj hs; exact .io hτ
  case h_4 => obtain rfl := Option.some.inj hs; exact .stay

theorem step_hash (hs : x.hash sha256 p = some x') : Step sha256 std x (.hash p) x' := by
  rw [hash] at hs
  split at hs
  case h_2 => cases hs; exact .stay
  case h_1 v read hk =>
    split at hs
    case isTrue hl =>
      obtain ⟨base, hb, hs⟩ := Option.bind_eq_some_iff.mp hs
      obtain ⟨byte, hf, hs⟩ := Option.bind_eq_some_iff.mp hs
      cases hs
      exact .read hk hl hb hf
    case isFalse hl =>
      obtain ⟨e, he, hs⟩ := Option.bind_eq_some_iff.mp hs
      cases hs
      exact .enqueue hk (Nat.not_lt.mp hl) he

theorem step_report (hs : x.report p a = some x') : Step sha256 std x (.report p a) x' := by
  rw [report] at hs
  split at hs
  case h_2 => cases hs; exact .stay
  case h_1 e hk =>
    obtain ⟨⟨q, e', events⟩, hp, hs⟩ := Option.bind_eq_some_iff.mp hs
    cases hs
    exact .report hk hp

theorem step_drain (hs : x.drain = some x') : Step sha256 std x .drain x' := by
  rw [drain] at hs
  split at hs
  case isTrue => cases hs; exact .stay
  case isFalse =>
    split at hs
    case isTrue hi =>
      obtain ⟨d, hd, hs⟩ := Option.bind_eq_some_iff.mp hs
      cases hs
      exact .tryDequeue hi hd
    case isFalse hi =>
      obtain ⟨⟨q, d, events⟩, hc, hs⟩ := Option.bind_eq_some_iff.mp hs
      cases hs
      exact .consume hi hc

theorem step_cases (hs : x.step sha256 std op = some x') : Step sha256 std x op x' := by
  cases op
  case session op =>
    rw [step] at hs
    split at hs <;> cases hs
    case isTrue  => exact .task rfl rfl
    case isFalse => exact .stay
  case piece t now =>
    rw [step] at hs
    split at hs <;> cases hs
    case isTrue  => exact .task rfl rfl
    case isFalse => exact .stay
  case tick now dead =>
    rw [step] at hs
    split at hs <;> cases hs
    case isTrue  => exact .task rfl rfl
    case isFalse => exact .stay
  case io w => exact step_io hs
  case copy w k =>
    obtain rfl := Option.some.inj hs
    rw [copy]
    split
    case h_1 hn => exact .copy hn
    case h_2    => exact .stay
  case take p k =>
    obtain rfl := Option.some.inj hs
    rw [take]
    split
    case h_1 hw hv => exact .take hw hv
    case h_2       => exact .stay
  case hash p     => exact step_hash hs
  case report p a => exact step_report hs
  case drain      => exact step_drain hs

theorem seed_step (hs : Step sha256 std x op x') : x'.task.seed = x.task.seed := by
  cases hs
  case task hs _ => exact Task.seed_step hs
  case io hs     => exact (Task.ioStep_cases hs).seed
  all_goals rfl

-- A result that is reported was already reported, or it has just been found.
theorem of_mem_reported (hs : Step sha256 std x op x') (hr : r ∈ x'.reported) :
    r ∈ x.reported ∨ ∃ v read, .hashes v read ∈ x.workers ∧ v.length.toNat ≤ read.length ∧
      r = v.result sha256 read ∧ x'.task = x.task := by
  rw [mem_reported] at hr ⊢
  -- The worker that moves has an element that it had before, or none.
  have worker {p : Nat} {k k' : VerifyWorker δ} (hk : x.workers[p]? = some k)
      (he : k'.call.element = some r → k.call.element = some r)
      (h : ∃ k ∈ x.workers.set p k', k.call.element = some r) :
      ∃ k ∈ x.workers, k.call.element = some r := by
    obtain ⟨j, hj, hx⟩ := h
    obtain hj | rfl := List.mem_or_eq_of_mem_set hj
    case inl => exact ⟨j, hj, hx⟩
    case inr => exact ⟨k, List.mem_of_getElem? hk, he hx⟩
  cases hs
  case stay | begins | copy => exact .inl hr
  case io hs => exact .inl (hr.imp_left fun hr => (Task.ioStep_cases hs).results ▸ hr)
  case task hs ho =>
    exact .inl (hr.imp_left (Task.mem_results_step (Op.onTask_ne_verify ho) hs))
  case take hw _ =>
    exact .inl (hr.imp_right (.imp_right (.imp_left (worker hw fun h => by cases h))))
  case read hw _ _ _ =>
    exact .inl (hr.imp_right (.imp_right (.imp_left (worker hw fun h => by cases h))))
  case enqueue p v read hw hl he =>
    obtain hr | hr | ⟨j, hj, hx⟩ | hr := hr
    case inr.inr.inl =>
      obtain hj | rfl := List.mem_or_eq_of_mem_set hj
      case inl => exact .inl (.inr (.inr (.inl ⟨j, hj, hx⟩)))
      case inr =>
        have hx' := (ReaderWriterQueue.element_innerEnqueue he).symm.trans hx
        exact .inr ⟨v, read, List.mem_of_getElem? hw, hl, (Option.some.inj hx').symm, rfl⟩
    case inl         => exact .inl (.inl hr)
    case inr.inl     => exact .inl (.inr (.inl hr))
    case inr.inr.inr => exact .inl (.inr (.inr (.inr hr)))
  case report hw hp =>
    refine .inl ?_
    obtain hr | hr | hr | hr := hr
    case inl => exact .inl hr
    case inr.inl =>
      refine .inr ((ReaderWriterQueue.of_mem_values_produce hp hr).imp_right fun hx => ?_)
      exact .inl ⟨_, List.mem_of_getElem? hw, hx⟩
    case inr.inr.inl =>
      exact .inr (.inr (.inl (worker hw (ReaderWriterQueue.element_produce hp) hr)))
    case inr.inr.inr => exact .inr (.inr (.inr hr))
  case tryDequeue hd =>
    refine .inl (hr.imp_right (.imp_right (.imp_right fun hx => ?_)))
    rw [ReaderWriterQueue.element_tryDequeue hd] at hx
    cases hx
  case consume hc =>
    have ⟨hnew, hpop⟩ := ReaderWriterQueue.element_consume hc
    refine .inl ?_
    obtain hr | hr | hr | hr := hr
    case inl =>
      obtain hr | hr := List.mem_append.mp hr
      case inl => exact .inl hr
      case inr => exact .inr (.inr (.inr (hpop r hr)))
    case inr.inl         => exact .inr (.inl (ReaderWriterQueue.of_mem_values_consume hc hr))
    case inr.inr.inl     => exact .inr (.inr (.inl hr))
    case inr.inr.inr     => exact .inr (.inl (hnew r hr))

-- What a worker has read of its chunk was read before, or it has just taken the task, or it reads the
-- next byte.
theorem of_mem_workers {read : List UInt8} (hs : Step sha256 std x op x')
    (hk : .hashes v read ∈ x'.workers) :
    .hashes v read ∈ x.workers ∨ (v ∈ x.task.verifyTasks ∧ read = []) ∨
      ∃ before base byte, .hashes v before ∈ x.workers ∧ before.length < v.length.toNat ∧
        v.data = some base ∧ x.task.file[base + before.length]? = some byte ∧
        read = before ++ [byte] ∧ x'.task = x.task := by
  cases hs
  case stay | task | io | begins | copy | tryDequeue | consume => exact .inl hk
  case take hv =>
    obtain hk | hk := List.mem_or_eq_of_mem_set hk
    case inl => exact .inl hk
    case inr =>
      cases hk
      exact .inr (.inl ⟨List.mem_of_getElem? hv, rfl⟩)
  case read before base byte hw hl hb hf =>
    obtain hk | hk := List.mem_or_eq_of_mem_set hk
    case inl => exact .inl hk
    case inr =>
      cases hk
      exact .inr (.inr ⟨before, base, byte, List.mem_of_getElem? hw, hl, hb, hf, rfl, rfl⟩)
  case enqueue | report =>
    obtain hk | hk := List.mem_or_eq_of_mem_set hk
    case inl => exact .inl hk
    case inr => cases hk

end Steps

theorem Placed.step (h : x.Placed) (hs : Step sha256 std x op x') : x'.Placed := by
  refine ⟨?_, fun r hr => ?_, fun v read hk => ?_⟩
  · cases hs
    case stay | begins | read | enqueue | report | tryDequeue => exact h.layout
    case task hs _ => exact h.layout.step hs
    case io hs =>
      have hi := Task.ioStep_cases hs
      exact (h.layout.ioStep hi).withFile hi.length_file.symm
    case copy => exact h.layout.withFile List.length_set
    case take =>
      exact { h.layout with
        verifies := fun v hv => h.layout.verifies v (List.mem_of_mem_eraseIdx hv) }
    case consume hc =>
      refine { h.layout with results := List.forall_mem_append.mpr ⟨h.layout.results, ?_⟩ }
      intro r hr
      have hd := (ReaderWriterQueue.element_consume hc).right r hr
      exact h.reported r (mem_reported.mpr (.inr (.inr (.inr hd))))
  · rw [seed_step hs]
    obtain hr | ⟨v, read, hk, _, rfl, _⟩ := of_mem_reported hs hr
    case inl => exact h.reported r hr
    case inr =>
      obtain ⟨e, he⟩ := h.hashes v read hk
      exact (List.getElem?_eq_some_iff.mp he.chunk).choose
  · rw [seed_step hs]
    obtain hk | ⟨hv, _⟩ | ⟨before, _, _, hk, _⟩ := of_mem_workers hs hk
    case inl     => exact h.hashes v read hk
    case inr.inl => exact h.layout.verifies v hv
    case inr.inr => exact h.hashes v before hk

section Intact

-- The bytes of every verified chunk have the chunk's digest, and the file still has what is read of a
-- chunk.
structure Intact (sha256 : List UInt8 → δ) (x : Verifying δ) : Prop extends Placed x where
  seen : ∀ v read, .hashes v read ∈ x.workers → read.length ≤ v.length.toNat ∧
    (read = [] ∨ ∃ base, v.data = some base ∧ x.task.file.slice base read.length = read)
  hash : ∀ {c : Nat} {e}, x.task.seed.chunks[c]? = some e → x.verified c →
    sha256 (e.bytes x.task.file) = e.sha256

-- Only bytes that may change are changed.
theorem file_step (hk : x.KeepsVerified op) (hs : Step sha256 std x op x') :
    x'.task.file = x.task.file ∨
      ∃ pos byte, x.isProtected pos = false ∧ x'.task.file = x.task.file.set pos byte := by
  cases hs
  case task o τ m hs ho =>
    refine .inl (Task.file_step hs fun ⟨w, hw⟩ => ?_)
    subst hw
    cases op <;> cases ho
  case copy pos byte cs hn =>
    cases hp : x.isProtected pos
    case false => exact .inr ⟨pos, byte, hp, rfl⟩
    case true  =>
      have he : x.task.file[pos]? = some byte := hk _ hn hp
      obtain ⟨hlt, rfl⟩ := List.getElem?_eq_some_iff.mp he
      exact .inl (List.set_getElem_self hlt)
  all_goals exact .inl rfl

theorem verified_of_step (h : x.Placed) (hl : x.Legal op) (hs : Step sha256 std x op x')
    (hc : c < x.task.seed.chunks.length) (hd : x'.task.scheduler.closed c) : x.verified c := by
  rw [verified_iff]
  cases hs
  case task hs ho =>
    refine (h.layout.of_closed_step (Op.legal_onTask ho hl).calls hs hc hd).imp_right ?_
    rintro ⟨r, hr, hp⟩
    exact ⟨r, mem_reported.mpr (.inl hr), hp⟩
  case io hs => exact .inl ((Task.ioStep_cases hs).scheduler ▸ hd)
  all_goals exact .inl hd

-- A verification that passes has read the bytes that are in the file.
theorem Intact.hash_of_passed {read : List UInt8} (h : Intact sha256 x)
    (hk : .hashes v read ∈ x.workers)
    (hl : v.length.toNat ≤ read.length) (hp : (v.result sha256 read).passed)
    (he : x.task.seed.chunks[v.chunkIdx]? = some e) :
    sha256 (e.bytes x.task.file) = e.sha256 := by
  obtain ⟨e', hv⟩ := h.hashes v read hk
  obtain rfl : e' = e := Option.some.inj (hv.chunk.symm.trans he)
  have ⟨hle, hr⟩ := h.seen v read hk
  have hn : read.length = e'.length.toNat := hv.length ▸ Nat.le_antisymm hle hl
  have hb : e'.bytes x.task.file = read := by
    rw [ChunkEntry.bytes, ← hn]
    obtain rfl | ⟨base, hb, hs⟩ := hr
    case inl => exact List.take_zero
    case inr =>
      obtain hd | hd := hv.data
      case inl => rw [hd] at hb; cases hb
      case inr => rwa [← Option.some.inj (hb.symm.trans hd)]
  rw [hb, ← hv.hash]
  exact of_decide_eq_true hp

theorem Intact.step (h : Intact sha256 x) (hl : x.Legal op) (hk : x.KeepsVerified op)
    (hs : Step sha256 std x op x') : Intact sha256 x' := by
  have hf := file_step hk hs
  -- What was verified before the step.
  have old {c : Nat} {e : ChunkEntry δ} (he : x.task.seed.chunks[c]? = some e) (hv : x.verified c) :
      sha256 (e.bytes x'.task.file) = e.sha256 := by
    obtain hf | ⟨pos, byte, hp, hf⟩ := hf
    case inl => rw [hf]; exact h.hash he hv
    case inr => rw [hf, bytes_set hp he hv]; exact h.hash he hv
  -- What was read before the step.
  have kept {v : VerifyTask δ} {read : List UInt8} {base : Nat} (hw : .hashes v read ∈ x.workers)
      (hb : v.data = some base) :
      x'.task.file.slice base read.length = x.task.file.slice base read.length := by
    obtain hf | ⟨pos, byte, hp, hf⟩ := hf
    case inl => rw [hf]
    case inr => rw [hf, slice_set hp hw hb]
  refine ⟨h.toPlaced.step hs, fun v read hk => ?_, fun {c e} he hv => ?_⟩
  · obtain hw | ⟨_, rfl⟩ | ⟨before, base, byte, hw, hlt, hb, hy, rfl, hx⟩ := of_mem_workers hs hk
    case inl =>
      refine (h.seen v read hw).imp_right (.imp_right ?_)
      rintro ⟨base, hb, hr⟩
      exact ⟨base, hb, (kept hw hb).trans hr⟩
    case inr.inl => exact ⟨Nat.zero_le _, .inl rfl⟩
    case inr.inr =>
      have hr : x.task.file.slice base before.length = before := by
        obtain rfl | ⟨base', hb', hr⟩ := (h.seen v before hw).right
        case inl => exact List.take_zero
        case inr => rwa [Option.some.inj (hb.symm.trans hb')]
      rw [hx, List.length_append, List.length_singleton]
      exact ⟨hlt, .inr ⟨base, hb, by rw [List.slice_succ hy, hr]⟩⟩
  · rw [seed_step hs] at he
    have hc := (List.getElem?_eq_some_iff.mp he).choose
    obtain hd | ⟨r, hr, rfl, hp⟩ := verified_iff.mp hv
    case inl => exact old he (verified_of_step h.toPlaced hl hs hc hd)
    case inr =>
      obtain hr | ⟨v, read, hw, hlen, rfl, hx⟩ := of_mem_reported hs hr
      case inl => exact old he (verified_iff.mpr (.inr ⟨r, hr, rfl, hp⟩))
      case inr =>
        rw [hx]
        exact h.hash_of_passed hw hlen hp he

end Intact

end Verifying

namespace Task

variable {δ : Type} [DecidableEq δ]

-- A download that starts with what it claims. This needs nothing if it is started by `cmd_add`.
inductive StartsVerified (sha256 : List UInt8 → δ) (std : StdSort) : Task δ → Prop
  | cmdAdd {seed : TSeedFile δ} {τ : Task δ} :
    cmdAdd sha256 std seed existing hw speed order = some τ → StartsVerified sha256 std τ
  | cmdUpdate {seed : TSeedFile δ} {oldSeed : Option (TSeedFile δ)} {files : Files} {τ : Task δ} :
    cmdUpdate sha256 std seed newPath oldSeed oldPath files clones hw speed order = some τ →
    Actions.AllAt (reuseChunk oldPath newPath clones) (KeepsClaims sha256 seed oldPath newPath clones)
      (reuseStart sha256 seed newPath oldSeed oldPath files) (reuseChunks seed oldPath) →
    StartsVerified sha256 std τ

variable {sha256 : List UInt8 → δ} {std : StdSort} {τ : Task δ}

namespace StartsVerified

theorem downloads (h : StartsVerified sha256 std τ) : Downloads sha256 std τ := by
  cases h
  case cmdAdd h      => exact .cmdAdd h
  case cmdUpdate _ h => exact .cmdUpdate h

theorem hash (h : StartsVerified sha256 std τ) (he : τ.seed.chunks[c]? = some e)
    (hc : τ.scheduler.closed c) : sha256 (e.bytes τ.file) = e.sha256 := by
  have hlt := (List.getElem?_eq_some_iff.mp he).choose
  cases h
  case cmdAdd h =>
    have hA := (cmdAdd_spec h).right
    rw [hA.file]
    exact hash_of_initBf he (hA.bit_of_closed hlt hc)
  case cmdUpdate hk h =>
    obtain ⟨rfl, hu⟩ := cmdUpdate_spec h
    have hclaims := claims_reuse hk (begins_cmdUpdate h).right.inside
    rw [hu.scheduler] at hc
    have hb := (Scheduler.closed_opening (TSeedFile.toNat_chunkCount ▸ hlt)).symm.trans hc
    rw [hu.file]
    refine hclaims c e ?_ he
    have hbit := (Bool.and_eq_true_iff.mp hb).right
    rw [List.getD_eq_getElem?_getD, Option.getD_eq_iff] at hbit
    exact hbit.resolve_right (by simp)

end StartsVerified

end Task

namespace Verifying

variable {δ : Type} [DecidableEq δ] {sha256 : List UInt8 → δ} {std : StdSort} {x : Verifying δ}

theorem Intact.start {τ : Task δ} (h : τ.StartsVerified sha256 std) : Intact sha256 (start hw τ) := by
  have ho := h.downloads.opened
  refine ⟨.start ho, fun v read hk => ?_, fun {c e} he hv => ?_⟩
  · cases List.eq_of_mem_replicate hk
  · obtain hd | ⟨r, hr, _⟩ := verified_iff.mp hv
    case inl => exact h.hash he hd
    case inr =>
      rw [reported_start, ho.results] at hr
      cases hr

section LateDuplicate

-- A seed with two chunks. Chunks are their own digests.
def pairSeed : TSeedFile (List UInt8) where
  fileSize := 3
  config   := {}
  chunks   := [⟨0, 2, [3, 4]⟩, ⟨2, 1, [9]⟩]
  countLt  := by decide

def pairStart : Task (List UInt8) :=
  (Task.cmdAdd id .stable pairSeed (some [0, 0, 9]) 4 1000 [1, 0]).get (by decide +kernel)

-- The first chunk is requested and arrives.
def firstDelivery : List Op := [
  .session (.onPeerAdded 0 1000), .session (.onBitfield 0 [true, true] 1),
  .session (.onChokeChange 0 false), .drain, .drain, .drain, .tick 10 false,
  .piece ⟨0, 0, 0, [3, 4], by decide⟩ 11, .io 0, .copy 0 1, .copy 0 0, .io 0, .io 0, .io 0
]

-- A worker verifies it, and the result is drained.
def verification : List Op := [
  .hash 0, .hash 0, .report 0 true, .report 0 true,
  .drain, .drain, .drain, .drain, .drain, .drain, .drain, .tick 20 false
]

-- The piece arrives again. It is copied while the chunk is read, and once more when it is complete.
def duplicateDelivery : List Op :=
  firstDelivery ++ [.piece ⟨0, 0, 0, [3, 4], by decide⟩ 12, .io 0, .copy 0 0, .take 0 0, .hash 0,
    .copy 0 0, .io 0, .io 0] ++ verification ++
    [.piece ⟨0, 0, 0, [3, 4], by decide⟩ 21, .io 0, .copy 0 0, .copy 0 0, .io 0, .io 0]

def pairDuplicated : Verifying (List UInt8) :=
  (Machine.run (step id .stable) (start 4 pairStart) duplicateDelivery).get (by decide +kernel)

end LateDuplicate

end Verifying

end ThinBT
