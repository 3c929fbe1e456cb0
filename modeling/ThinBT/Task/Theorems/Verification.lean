import ThinBT.Task.Theorems.Verified
import ThinBT.Task.Theorems.Recovery

namespace ThinBT

open ReaderWriterQueue (Enqueue Keeps HasRoom)

namespace Task

variable {δ : Type} {τ τ' : Task δ} {rs : List VerifyResult} {w c : Nat}

-- There are results behind those of the task.
def withResults (τ : Task δ) (rs : List VerifyResult) : Task δ :=
  { τ with results := τ.results ++ rs }

theorem ioStep_withResults :
    (τ.withResults rs).ioStep w = (τ.ioStep w).map (·.withResults rs) := by
  have hw : (τ.withResults rs).workers = τ.workers := rfl
  rw [ioStep, ioStep, hw]
  cases τ.workers[w]?
  case none => rfl
  case some k =>
    obtain ⟨q, stage⟩ := k
    cases stage
    case idle =>
      cases q
      case nil => rfl
      case cons t q =>
        change (τ.assemblers[t.chunkIdx.toNat]?).bind _ = ((τ.assemblers[t.chunkIdx.toNat]?).bind _).map _
        cases τ.assemblers[t.chunkIdx.toNat]?
        case none => rfl
        case some a =>
          simp only [Option.bind_some]
          split
          case isFalse => rfl
          case isTrue =>
            change (a.write t.begin t.data τ.file).bind _ = ((a.write t.begin t.data τ.file).bind _).map _
            cases a.write t.begin t.data τ.file <;> rfl
    case written t =>
      change (τ.assemblers[t.chunkIdx.toNat]?).bind _ = ((τ.assemblers[t.chunkIdx.toNat]?).bind _).map _
      cases τ.assemblers[t.chunkIdx.toNat]?
      case none => rfl
      case some a =>
        simp only [Option.bind_some, Option.bind_eq_bind]
        cases a.mark t.begin <;> rfl
    case marked t =>
      change (τ.assemblers[t.chunkIdx.toNat]?).bind _ = ((τ.assemblers[t.chunkIdx.toNat]?).bind _).map _
      cases τ.assemblers[t.chunkIdx.toNat]?
      case none => rfl
      case some a =>
        change (τ.seed.chunks[t.chunkIdx.toNat]?).bind _ = ((τ.seed.chunks[t.chunkIdx.toNat]?).bind _).map _
        cases τ.seed.chunks[t.chunkIdx.toNat]?
        case none => rfl
        case some e =>
          simp only [Option.bind_some]
          cases a.countDown.2 <;> rfl

theorem Ledger.of_le (h : τ.Ledger c) (ha : τ'.assemblers = τ.assemblers)
    (hw : τ'.workers = τ.workers) (hf : τ'.inFlight c ≤ τ.inFlight c) : τ'.Ledger c := by
  have ha : τ'.assemblers[c]? = τ.assemblers[c]? := by rw [ha]
  have hm : τ'.countingOn c = τ.countingOn c := by rw [countingOn, hw, countingOn]
  refine ⟨?_, ?_, hf.trans h.once, fun hp => (h.spent (hp.trans_le hf)).of_eq ha hm⟩
  · rw [ha, hm]; exact h.pending
  · rw [ha, hm]; exact h.counting

-- A task with so many verifications of the chunk besides its own.
def withUnderway (τ : Task δ) (c n : Nat) : Task δ :=
  τ.withResults (.replicate n ⟨c, 0, false⟩)

theorem inFlight_withUnderway : (τ.withUnderway c n).inFlight c = τ.inFlight c + n := by
  have hn : (List.replicate n (⟨c, 0, false⟩ : VerifyResult)).countP (·.chunkIdx = c) = n := by
    rw [List.countP_replicate, if_pos (decide_eq_true rfl)]
  rw [inFlight, withUnderway, withResults, List.countP_append, hn, ← Nat.add_assoc, inFlight]

theorem Layout.withUnderway (h : τ.Layout) (hc : c < τ.seed.chunks.length) :
    (τ.withUnderway c n).Layout := by
  refine { h with results := List.forall_mem_append.mpr ⟨h.results, fun r hr => ?_⟩ }
  rw [List.eq_of_mem_replicate hr]
  exact hc

theorem Doomed.of_inFlight (h : τ.Doomed c) (hl : τ'.Layout) (hs : τ'.seed = τ.seed)
    (ha : τ'.assemblers = τ.assemblers) (hw : τ'.workers = τ.workers)
    (hσ : τ'.scheduler = τ.scheduler) (hf : τ'.inFlight c = 0) : τ'.Doomed c := by
  have hg := h.ledger.of_le ha hw (hf ▸ Nat.zero_le _)
  refine ⟨⟨hl, hg⟩, hs ▸ h.chunk, h.spent.of_eq (by rw [ha]) ?_, hf, hσ ▸ h.missing⟩
  rw [countingOn, hw, countingOn]

section Underway

variable [DecidableEq δ] {sha256 : List UInt8 → δ} {std : StdSort}

theorem Ledger.step_withUnderway (h : (τ.withUnderway c n).Ledger c) (hl : τ.Layout)
    (hc : c < τ.seed.chunks.length) (ho : ∀ k, o ≠ .verify k)
    (hs : τ.step sha256 std o = some τ') : (τ'.withUnderway c n).Ledger c := by
  cases o
  case session => cases hs; exact h.of_eq rfl rfl rfl
  case piece   => cases hs; exact h.of_eq rfl countingOn_dispatch rfl
  case io w =>
    have hs' : (τ.withUnderway c n).ioStep w = some (τ'.withUnderway c n) := by
      rw [withUnderway, ioStep_withResults, show τ.ioStep w = some τ' from hs]
      rfl
    exact h.ioStep (hl.withUnderway hc) (ioStep_cases hs')
  case verify k => exact absurd rfl (ho k)
  case tick =>
    cases hs
    refine h.of_le rfl rfl ?_
    rw [inFlight_withUnderway, inFlight_withUnderway]
    exact Nat.add_le_add_right (Nat.add_le_add_left (Nat.zero_le _) _) _

end Underway

end Task

-- The result of the chunk is not in the queue yet.
def VerifyWorker.holds (c : Nat) : VerifyWorker δ → Bool
  | .hashes v _ => v.chunkIdx = c
  | .reports e  => e.unwritten.any (·.chunkIdx = c)

namespace Verifying

section Definitions

variable {δ : Type}

-- The sessions call the scheduler as they do in a task, there is memory for the blocks of the queue, and
-- no worker calls `enqueue` while another one is in it.
def Alone (x : Verifying δ) : Op → Prop
  | .session op => x.task.Legal (.session op)
  | .hash p     => x.workers[p]?.any (·.hashed) → ∀ k ∈ x.workers, k.call = .idle
  | .report _ a => a = true
  | _           => True

instance {x : Verifying δ} : (op : Op) → Decidable (x.Alone op)
  | .session op => inferInstanceAs (Decidable (x.task.Legal (.session op)))
  | .hash p     => inferInstanceAs (Decidable (x.workers[p]?.any (·.hashed) →
      ∀ k ∈ x.workers, k.call = .idle))
  | .report _ a => inferInstanceAs (Decidable (a = true))
  | .piece .. | .io _ | .copy .. | .take .. | .drain | .tick .. => .isTrue trivial

-- Two workers call `enqueue` at the same time: both read the tail, then both write their results, and
-- then both publish them.
def overlap (p p' : Nat) : List Op := [
  .hash p, .hash p', .report p true, .report p' true, .report p true, .report p' true
]

-- What a call of `enqueue` returns, if it is over with this step.
def returned (x : Verifying δ) : Op → List (Nat × Fifo.Event VerifyResult)
  | .report p a =>
    match x.workers[p]? with
    | some (.reports e) => (x.results.produce a e).elim [] fun r => r.2.2.map (p, ·)
    | _                 => []
  | _           => []

def returns [DecidableEq δ] (sha256 : List UInt8 → δ) (std : StdSort) (x : Verifying δ) :
    List Op → List (Nat × Fifo.Event VerifyResult)
  | []        => []
  | op :: ops => x.returned op ++
    (x.step sha256 std op).elim [] fun x' => returns sha256 std x' ops

-- The call of the worker.
def callOf (x : Verifying δ) (p : Nat) : Enqueue VerifyResult :=
  x.workers[p]?.elim .idle (·.call)

-- The workers have called `enqueue` one after another.
def Reports (x : Verifying δ) : Prop :=
  ∃ p xs, (∀ p' ≠ p, x.callOf p' = .idle) ∧ Keeps x.results (x.callOf p) x.drainer xs

-- The number of verifications of the chunk that have begun and are not drained.
def underway (x : Verifying δ) (c : Nat) : Nat :=
  x.workers.countP (·.holds c) + x.results.cellsWith (·.chunkIdx = c)

end Definitions

variable {δ : Type} {x x' : Verifying δ}

theorem callOf_eq (h : x.workers[p]? = some k) : x.callOf p = k.call := by
  rw [callOf, h, Option.elim_some]

theorem callOf_setWorker (h : x.workers[p]? = some k) (k' : VerifyWorker δ) (p' : Nat) :
    (x.setWorker p k').callOf p' = if p' = p then k'.call else x.callOf p' := by
  have hp := (List.getElem?_eq_some_iff.mp h).choose
  rw [callOf, setWorker]
  split
  case isTrue he  => rw [he, List.getElem?_set_self hp, Option.elim_some]
  case isFalse he => rw [List.getElem?_set_ne (Ne.symm he), callOf]

-- A worker that is in no call goes on without one.
theorem callOf_setWorker_same (h : x.workers[p]? = some k) (hk : k'.call = k.call) :
    (x.setWorker p k').callOf = x.callOf := by
  funext p'
  rw [callOf_setWorker h]
  split
  case isTrue he  => rw [he, hk, callOf_eq h]
  case isFalse he => rfl

theorem callOf_eq_idle (h : ∀ k ∈ x.workers, k.call = .idle) (p : Nat) : x.callOf p = .idle := by
  cases hk : x.workers[p]?
  case none   => rw [callOf, hk]; rfl
  case some k => rw [callOf_eq hk, h k (List.mem_of_getElem? hk)]

namespace Reports

theorem start {τ : Task δ} : (start hw τ).Reports := by
  have hi (p) : (Verifying.start hw τ).callOf p = .idle :=
    callOf_eq_idle (fun k hk => by rw [List.eq_of_mem_replicate hk]; rfl) p
  refine ⟨0, [], fun p _ => hi p, ?_⟩
  rw [hi]
  exact .init (show 1 ≤ 4096 by decide) (by decide)

theorem of_eq (h : x.Reports) (hc : x'.callOf = x.callOf) (hq : x'.results = x.results)
    (hd : x'.drainer = x.drainer) : x'.Reports := by
  rw [Reports, hc, hq, hd]
  exact h

theorem keeps (h : x.Reports) (hi : ∀ p, x.callOf p = .idle) :
    ∃ xs, Keeps x.results .idle x.drainer xs := by
  obtain ⟨p, xs, _, hk⟩ := h
  exact ⟨xs, hi p ▸ hk⟩

theorem inCell (h : x.Reports) : x.drainer.InCell x.results := by
  obtain ⟨p, xs, _, hk⟩ := h
  exact hk.inCell

theorem enqueue (h : x.Reports) (hi : ∀ k ∈ x.workers, k.call = .idle)
    (hk : x.workers[p]? = some k) (he : x.results.innerEnqueue r = some e) :
    (x.setWorker p (.reports e)).Reports := by
  have hi := callOf_eq_idle hi
  obtain ⟨xs, hx⟩ := h.keeps hi
  obtain ⟨e', he', _, hx⟩ := hx.innerEnqueue r
  obtain rfl := Option.some.inj (he.symm.trans he')
  refine ⟨p, xs, fun p' hp => ?_, ?_⟩
  · rw [callOf_setWorker hk, if_neg hp, hi]
  · rw [callOf_setWorker hk, if_pos rfl]
    exact hx

theorem report (h : x.Reports) (hk : x.workers[p]? = some (.reports e))
    (hp : x.results.produce true e = some (q, e', events)) :
    ({ x with results := q }.setWorker p (.reports e')).Reports := by
  obtain ⟨p₀, xs, ho, hx⟩ := h
  have hc : ∀ p', ({ x with results := q }.setWorker p (.reports e')).callOf p' =
      if p' = p then e' else x.callOf p' := callOf_setWorker hk _
  cases he : e.element
  case none =>
    obtain rfl := ReaderWriterQueue.Enqueue.element_eq_none_iff.mp he
    cases hp
    exact of_eq ⟨p₀, xs, ho, hx⟩ (callOf_setWorker_same hk rfl) rfl rfl
  case some r =>
    obtain rfl : p = p₀ := by
      by_contra hne
      have hi := ho p hne
      rw [callOf_eq hk] at hi
      rw [show e = .idle from hi] at he
      cases he
    rw [callOf_eq hk] at hx
    obtain ⟨q', e'', events', hp', hput⟩ := hx.produce he true
    cases hp.symm.trans hp'
    have hother (p') (hne : p' ≠ p) : ({ x with results := q }.setWorker p (.reports e')).callOf p' =
        .idle := by rw [hc, if_neg hne, ho p' hne]
    cases hput
    case goesOn hk  => exact ⟨p, xs, hother, by rwa [hc, if_pos rfl]⟩
    case returns hk => exact ⟨p, xs ++ [r], hother, by rwa [hc, if_pos rfl]⟩
    case fails ha _ => cases ha

theorem tryDequeue (h : x.Reports) (hi : x.drainer = .idle) (hd : x.results.tryDequeue = some d) :
    Reports { x with drainer := d, mainThread := m } := by
  obtain ⟨p, xs, ho, hk⟩ := h
  rw [hi] at hk
  obtain ⟨d', hd', _, hk⟩ := hk.tryDequeue
  obtain rfl := Option.some.inj (hd.symm.trans hd')
  exact ⟨p, xs, ho, hk⟩

theorem consume (h : x.Reports) (hi : x.drainer ≠ .idle)
    (hc : x.results.consume x.drainer = some (q, d, events)) :
    Reports { x with task := τ, results := q, drainer := d, mainThread := m } := by
  obtain ⟨p, xs, ho, hk⟩ := h
  obtain ⟨q', d', events', hc', hg⟩ := hk.consume hi
  cases hc.symm.trans hc'
  cases hg
  case goesOn hk  => exact ⟨p, _, ho, hk⟩
  case empty hk   => exact ⟨p, _, ho, hk⟩
  case returns hk => exact ⟨p, _, ho, hk⟩

theorem step [DecidableEq δ] {sha256 : List UInt8 → δ} {std : StdSort} (h : x.Reports)
    (ha : x.Alone op) (hs : Step sha256 std x op x') : x'.Reports := by
  cases hs
  case stay | task | io | begins | copy => exact h
  case take hw _        => exact h.of_eq (callOf_setWorker_same hw rfl) rfl rfl
  case read hw _ _ _    => exact h.of_eq (callOf_setWorker_same hw rfl) rfl rfl
  case enqueue hw hl he => exact h.enqueue (ha (by rw [hw]; exact decide_eq_true hl)) hw he
  case tryDequeue hi hd => exact h.tryDequeue hi hd
  case consume hi hc    => exact h.consume hi hc
  case report a _ hw hp =>
    obtain rfl : a = true := ha
    exact h.report hw hp

end Reports

section Counts

theorem underway_start {τ : Task δ} : (start hw τ).underway c = 0 := by
  refine Nat.add_eq_zero_iff.mpr ⟨List.countP_eq_zero.mpr fun k hk => ?_, ?_⟩
  · rw [List.eq_of_mem_replicate hk]
    exact Bool.false_ne_true
  · rw [ReaderWriterQueue.cellsWith_eq_zero_iff]
    intro r hr
    rw [show (start hw τ).results.values = [] from ReaderWriterQueue.values_init] at hr
    cases hr

theorem underway_setWorker (h : x.workers[p]? = some k) (k' : VerifyWorker δ) :
    (x.setWorker p k').underway c + (if k.holds c then 1 else 0) =
      x.underway c + if k'.holds c then 1 else 0 := by
  have hw : (x.workers.set p k').countP (·.holds c) + _ = x.workers.countP (·.holds c) + _ :=
    List.countP_set_add h
  simp only [underway, setWorker]
  omega

theorem unwritten_innerEnqueue {q : ReaderWriterQueue VerifyResult} (h : q.innerEnqueue r = some e) :
    e.unwritten = some r := by
  obtain ⟨B, _, h⟩ := Option.bind_eq_some_iff.mp h
  cases h
  split <;> rfl

theorem underway_report (h : x.workers[p]? = some (.reports e))
    (hp : x.results.produce a e = some (q, e', events)) :
    ({ x with results := q }.setWorker p (.reports e')).underway c ≤ x.underway c := by
  have hw : (x.workers.set p (.reports e')).countP (·.holds c) +
      (if e.unwritten.any (·.chunkIdx = c) then 1 else 0) =
      x.workers.countP (·.holds c) + if e'.unwritten.any (·.chunkIdx = c) then 1 else 0 :=
    List.countP_set_add h
  have hq := ReaderWriterQueue.cellsWith_produce (p := (·.chunkIdx = c)) hp
  simp only [underway, setWorker]
  omega

-- The verifications of a chunk of which the results are not drained.
def flight (x : Verifying δ) (c : Nat) : Nat :=
  x.task.inFlight c + x.underway c

theorem flight_take (hw : x.workers[p]? = some (.reports .idle))
    (hv : x.task.verifyTasks[k]? = some v) :
    ({ x with task := { x.task with verifyTasks := x.task.verifyTasks.eraseIdx k } }.setWorker p
      (.hashes v [])).flight c = x.flight c := by
  have hu : (x.setWorker p (.hashes v [])).underway c + 0 =
      x.underway c + if decide (v.chunkIdx = c) then 1 else 0 :=
    underway_setWorker hw _
  have hf := Task.inFlight_verified (c := c) (r := ⟨v.chunkIdx, 0, false⟩) hv rfl
  simp only [Task.inFlight, List.countP_append, List.countP_singleton] at hf
  simp only [flight, Task.inFlight, underway, setWorker] at hu ⊢
  omega

theorem flight_consume (hi : x.drainer.InCell x.results)
    (hc : x.results.consume x.drainer = some (q, d, events)) :
    flight { x with
      task       := { x.task with results := x.task.results ++ events.filterMap Fifo.Event.popped }
      results    := q
      drainer    := d
      mainThread := m } c = x.flight c := by
  have hq := ReaderWriterQueue.cellsWith_consume (p := (·.chunkIdx = c)) hc hi
  simp only [flight, Task.inFlight, underway, List.countP_append]
  omega

end Counts

-- The counter of a chunk, together with all its verifications.
structure Tracked (x : Verifying δ) (c : Nat) : Prop extends Placed x where
  reports : x.Reports
  chunk   : c < x.task.seed.chunks.length
  ledger  : (x.task.withUnderway c (x.underway c)).Ledger c

theorem ledger_of_flight (h : (x.task.withUnderway c (x.underway c)).Ledger c)
    (ha : x'.task.assemblers = x.task.assemblers) (hw : x'.task.workers = x.task.workers)
    (hf : x'.flight c ≤ x.flight c) : (x'.task.withUnderway c (x'.underway c)).Ledger c := by
  refine h.of_le ha hw ?_
  rw [Task.inFlight_withUnderway, Task.inFlight_withUnderway]
  exact hf

-- A chunk that is not complete, and of which nothing is on its way.
structure Gone (x : Verifying δ) (c : Nat) : Prop extends Placed x where
  doomed     : x.task.Doomed c
  unreported : ∀ r ∈ x.reported, r.chunkIdx ≠ c
  unread     : ∀ v read, .hashes v read ∈ x.workers → v.chunkIdx ≠ c

section Runs

variable [DecidableEq δ] {sha256 : List UInt8 → δ} {std : StdSort}

theorem Tracked.step (h : x.Tracked c) (ha : x.Alone op) (hs : Step sha256 std x op x') :
    x'.Tracked c := by
  refine ⟨h.toPlaced.step hs, h.reports.step ha hs, by rw [seed_step hs]; exact h.chunk, ?_⟩
  cases hs
  case stay | begins | tryDequeue => exact h.ledger
  case copy => exact h.ledger.of_eq rfl rfl rfl
  case io w τ cs hs =>
    have ho (k) : Task.Op.io w ≠ .verify k := Task.Op.noConfusion
    exact (h.ledger.step_withUnderway h.layout h.chunk ho hs).of_eq rfl rfl rfl
  case task hs ho =>
    exact h.ledger.step_withUnderway h.layout h.chunk (Op.onTask_ne_verify ho) hs
  case take hw hv => exact ledger_of_flight h.ledger rfl rfl (Nat.le_of_eq (flight_take hw hv))
  case consume hc =>
    exact ledger_of_flight h.ledger rfl rfl (Nat.le_of_eq (flight_consume h.reports.inCell hc))
  case report hw hp =>
    exact ledger_of_flight h.ledger rfl rfl (Nat.add_le_add_left (underway_report hw hp) _)
  case read v read base byte hw hl hb hf =>
    refine ledger_of_flight h.ledger rfl rfl (Nat.add_le_add_left (Nat.le_of_eq ?_) _)
    have hu := underway_setWorker (c := c) hw (.hashes v (read ++ [byte]))
    exact Nat.add_right_cancel hu
  case enqueue e p v read hw hl he =>
    refine ledger_of_flight h.ledger rfl rfl (Nat.add_le_add_left (Nat.le_of_eq ?_) _)
    have hu := underway_setWorker (c := c) hw (.reports e)
    rw [VerifyWorker.holds, VerifyWorker.holds, unwritten_innerEnqueue he] at hu
    exact Nat.add_right_cancel hu

theorem Gone.step (h : x.Gone c) (hl : x.Legal op) (hs : Step sha256 std x op x') : x'.Gone c := by
  have hP := h.toPlaced.step hs
  refine ⟨hP, ?_, fun r hr => ?_, fun v read hk => ?_⟩
  · cases hs
    case stay | begins | read | enqueue | report | tryDequeue => exact h.doomed
    case task hs ho => exact h.doomed.step (Op.legal_onTask ho hl) hs
    case io w τ cs hs =>
      have hl : x.task.Legal (.io w) := trivial
      have hd := h.doomed.step hl hs
      exact hd.of_inFlight hP.layout rfl rfl rfl rfl hd.inFlight
    case copy => exact h.doomed.of_inFlight hP.layout rfl rfl rfl rfl h.doomed.inFlight
    case take =>
      refine h.doomed.of_inFlight hP.layout rfl rfl rfl rfl (Nat.le_zero.mp ?_)
      refine h.doomed.inFlight ▸ Nat.add_le_add_right ?_ _
      exact (List.eraseIdx_sublist ..).countP_le
    case consume d events q m hi hc =>
      refine h.doomed.of_inFlight hP.layout rfl rfl rfl rfl ?_
      have hn : (events.filterMap Fifo.Event.popped).countP (·.chunkIdx = c) = 0 := by
        rw [List.countP_eq_zero]
        intro r hr hc'
        have hd := (ReaderWriterQueue.element_consume hc).right r hr
        exact h.unreported r (mem_reported.mpr (.inr (.inr (.inr hd)))) (of_decide_eq_true hc')
      have hz := h.doomed.inFlight
      simp only [Task.inFlight, List.countP_append, hn, Nat.add_zero] at hz ⊢
      exact hz
  · obtain hr | ⟨v, read, hk, _, rfl, _⟩ := of_mem_reported hs hr
    case inl => exact h.unreported r hr
    case inr => exact h.unread v read hk
  · obtain hk | ⟨hv, _⟩ | ⟨before, _, _, hk, _⟩ := of_mem_workers hs hk
    case inl     => exact h.unread v read hk
    case inr.inl => exact h.doomed.settled.not_mem_verifyTasks v hv
    case inr.inr => exact h.unread v before hk

end Runs

section Overlap

variable {y : Verifying δ} {v v' : VerifyTask δ} {read read' : List UInt8} {p p' : Nat}

theorem getElem?_setWorker (h : x.workers[p]? = some k) (k' : VerifyWorker δ) (i : Nat) :
    (x.setWorker p k').workers[i]? = if i = p then some k' else x.workers[i]? := by
  have hp := (List.getElem?_eq_some_iff.mp h).choose
  rw [setWorker]
  split
  case isTrue he  => rw [he, List.getElem?_set_self hp]
  case isFalse he => rw [List.getElem?_set_ne (Ne.symm he)]

theorem report_eq (hk : x.workers[p]? = some (.reports e))
    (hp : x.results.produce a e = some (q, e', events)) :
    x.report p a = some ({ x with results := q }.setWorker p (.reports e')) ∧
      x.returned (.report p a) = events.map (p, ·) := by
  simp only [report, returned, hk, hp]
  exact ⟨rfl, rfl⟩

theorem Tracked.flight_le (h : x.Tracked c) : x.flight c ≤ 1 := by
  have := h.ledger.once
  rwa [Task.inFlight_withUnderway] at this

-- A chunk that is verified has no other verification.
theorem Tracked.alone (h : x.Tracked v.chunkIdx) (hp : x.workers[p]? = some (.hashes v read)) :
    x.task.inFlight v.chunkIdx = 0 ∧ (∀ r ∈ x.results.values, r.chunkIdx ≠ v.chunkIdx) ∧
      ∀ i k, i ≠ p → x.workers[i]? = some k → ¬k.holds v.chunkIdx := by
  have hf : x.task.inFlight v.chunkIdx + x.underway v.chunkIdx ≤ 1 := h.flight_le
  have hu := underway_setWorker (c := v.chunkIdx) hp (.reports .idle)
  rw [if_pos (show (VerifyWorker.hashes v read).holds v.chunkIdx from decide_eq_true rfl),
    if_neg (show ¬(VerifyWorker.reports .idle : VerifyWorker δ).holds v.chunkIdx by
      simp [VerifyWorker.holds, Enqueue.unwritten])] at hu
  have hz : (x.setWorker p (.reports .idle)).workers.countP (·.holds v.chunkIdx) +
      x.results.cellsWith (·.chunkIdx = v.chunkIdx) = 0 :=
    show (x.setWorker p (.reports .idle)).underway v.chunkIdx = 0 by omega
  obtain ⟨hw, hq⟩ := Nat.add_eq_zero_iff.mp hz
  refine ⟨by omega, fun r hr he => ?_, fun i k hi hk => ?_⟩
  · exact ReaderWriterQueue.cellsWith_eq_zero_iff.mp hq r hr (decide_eq_true he)
  · refine List.countP_eq_zero.mp hw k (List.mem_of_getElem? (i := i) ?_)
    rw [getElem?_setWorker hp, if_neg hi, hk]

-- Without what the worker has read, nothing of the chunk is left.
theorem Tracked.doomed (h : x.Tracked v.chunkIdx) (hp : x.workers[p]? = some (.hashes v read))
    (hf : x.task.inFlight v.chunkIdx = 0)
    (hc : x.task.scheduler.chunkStates[v.chunkIdx]? ≠ some .complete) :
    x.task.Doomed v.chunkIdx := by
  have hpos : 0 < (x.task.withUnderway v.chunkIdx (x.underway v.chunkIdx)).inFlight v.chunkIdx := by
    rw [Task.inFlight_withUnderway]
    have : 0 < x.workers.countP (·.holds v.chunkIdx) :=
      List.countP_pos_iff.mpr ⟨_, List.mem_of_getElem? hp, decide_eq_true rfl⟩
    unfold underway
    omega
  refine ⟨⟨h.layout, h.ledger.of_le rfl rfl ?_⟩, h.chunk, (h.ledger.spent hpos).of_eq rfl rfl, hf,
    fun hd => ?_⟩
  · rw [hf]
    exact Nat.zero_le _
  · obtain hn | hn := Scheduler.closed_iff.mp hd
    case inl =>
      exact absurd h.chunk (Nat.not_lt.mpr (h.layout.totalChunks ▸ List.getElem?_eq_none_iff.mp hn))
    case inr => exact hc hn

-- The chunk whose result has been overwritten.
theorem Tracked.gone (h : x.Tracked v.chunkIdx) (hy : y.Placed)
    (hp : x.workers[p]? = some (.hashes v read)) (hp' : x.workers[p']? = some (.hashes v' read'))
    (hne : p ≠ p') (hi : ∀ k ∈ x.workers, k.call = .idle)
    (hc : x.task.scheduler.chunkStates[v.chunkIdx]? ≠ some .complete)
    (ht : y.task = x.task) (hd : y.drainer = x.drainer)
    (hw : ∀ i, y.workers[i]? = if i = p ∨ i = p' then some (.reports .idle) else x.workers[i]?)
    (hq : ∀ r ∈ y.results.values, r ∈ x.results.values ∨ r.chunkIdx = v'.chunkIdx) :
    y.Gone v.chunkIdx := by
  obtain ⟨hf, hv, ho⟩ := h.alone hp
  -- The other chunk is another one.
  have hv' : v'.chunkIdx ≠ v.chunkIdx := fun he => ho p' _ hne.symm hp' (decide_eq_true he)
  have hworkers {k} (hk : k ∈ y.workers) : k = .reports .idle ∨
      ∃ i, i ≠ p ∧ x.workers[i]? = some k := by
    obtain ⟨i, hi⟩ := List.mem_iff_getElem?.mp hk
    rw [hw] at hi
    split at hi
    case isTrue     => exact .inl (Option.some.inj hi).symm
    case isFalse hn => exact .inr ⟨i, fun he => hn (.inl he), hi⟩
  refine ⟨hy, ht ▸ h.doomed hp hf hc, fun r hr => ?_, fun u read hk => ?_⟩
  · rw [mem_reported, ht, hd] at hr
    obtain hr | hr | ⟨k, hk, hr⟩ | hr := hr
    case inl =>
      intro he
      have hz : 0 < x.task.results.countP (·.chunkIdx = v.chunkIdx) :=
        List.countP_pos_iff.mpr ⟨r, hr, decide_eq_true he⟩
      unfold Task.inFlight at hf
      omega
    case inr.inl =>
      obtain hr | hr := hq r hr
      case inl => exact hv r hr
      case inr => rw [hr]; exact hv'
    case inr.inr.inl =>
      have hidle : k.call = .idle := by
        obtain rfl | ⟨i, _, hk⟩ := hworkers hk
        case inl => rfl
        case inr => exact hi k (List.mem_of_getElem? hk)
      rw [hidle] at hr
      cases hr
    case inr.inr.inr => exact hv r (h.reports.inCell.mem_values hr)
  · obtain hk | ⟨i, hi, hk⟩ := hworkers hk
    case inl => cases hk
    case inr => exact fun he => ho i _ hi hk (decide_eq_true he)

variable [DecidableEq δ] {sha256 : List UInt8 → δ} {std : StdSort}

theorem hash_eq (hk : x.workers[p]? = some (.hashes v read)) (hl : v.length.toNat ≤ read.length)
    (he : x.results.innerEnqueue (v.result sha256 read) = some e) :
    x.hash sha256 p = some (x.setWorker p (.reports e)) := by
  simp only [hash, hk, if_neg (Nat.not_lt.mpr hl), he]
  rfl

-- Two workers that call `enqueue` at the same time.
theorem Reports.overlap (h : x.Reports) (hi : ∀ k ∈ x.workers, k.call = .idle)
    (hroom : x.results.HasRoom) (hp : x.workers[p]? = some (.hashes v read))
    (hl : v.length.toNat ≤ read.length) (hp' : x.workers[p']? = some (.hashes v' read'))
    (hl' : v'.length.toNat ≤ read'.length) (hne : p ≠ p') :
    ∃ y, Machine.run (Verifying.step sha256 std) x (Verifying.overlap p p') = some y ∧
      x.returns sha256 std (Verifying.overlap p p') =
        [(p, .enqueued (v.result sha256 read)), (p', .enqueued (v'.result sha256 read'))] ∧
      y.task = x.task ∧ y.drainer = x.drainer ∧
      (∀ i, y.workers[i]? = if i = p ∨ i = p' then some (.reports .idle) else x.workers[i]?) ∧
      ∀ r ∈ y.results.values, r ∈ x.results.values ∨ r = v'.result sha256 read' := by
  obtain ⟨xs, hk⟩ := h.keeps (callOf_eq_idle hi)
  obtain ⟨e₀, e₁, e₂, e₃, q₁, q₂, q₃, q₄, h₀, h₁, hq₁, hq₂, hq₃, hq₄, _, hz⟩ := hk.overlap hroom
    (v.result sha256 read) (v'.result sha256 read') true
  let x₁ : Verifying δ := x.setWorker p (.reports e₀)
  let x₂ : Verifying δ := x₁.setWorker p' (.reports e₁)
  let x₃ : Verifying δ := { x₂ with results := q₁ }.setWorker p (.reports e₂)
  let x₄ : Verifying δ := { x₃ with results := q₂ }.setWorker p' (.reports e₃)
  let x₅ : Verifying δ := { x₄ with results := q₃ }.setWorker p (.reports .idle)
  let x₆ : Verifying δ := { x₅ with results := q₄ }.setWorker p' (.reports .idle)
  have hw₁ (i) : x₁.workers[i]? = if i = p then some (.reports e₀) else x.workers[i]? :=
    getElem?_setWorker hp _ i
  have hp₁ : x₁.workers[p']? = some (.hashes v' read') := by rw [hw₁, if_neg hne.symm, hp']
  have hw₂ (i) : x₂.workers[i]? = if i = p' then some (.reports e₁) else x₁.workers[i]? :=
    getElem?_setWorker hp₁ _ i
  have hp₂ : x₂.workers[p]? = some (.reports e₀) := by rw [hw₂, if_neg hne, hw₁, if_pos rfl]
  have hw₃ (i) : x₃.workers[i]? = if i = p then some (.reports e₂) else x₂.workers[i]? :=
    getElem?_setWorker (x := { x₂ with results := q₁ }) hp₂ _ i
  have hp₃ : x₃.workers[p']? = some (.reports e₁) := by
    rw [hw₃, if_neg hne.symm, hw₂, if_pos rfl]
  have hw₄ (i) : x₄.workers[i]? = if i = p' then some (.reports e₃) else x₃.workers[i]? :=
    getElem?_setWorker (x := { x₃ with results := q₂ }) hp₃ _ i
  have hp₄ : x₄.workers[p]? = some (.reports e₂) := by rw [hw₄, if_neg hne, hw₃, if_pos rfl]
  have hw₅ (i) : x₅.workers[i]? = if i = p then some (.reports .idle) else x₄.workers[i]? :=
    getElem?_setWorker (x := { x₄ with results := q₃ }) hp₄ _ i
  have hp₅ : x₅.workers[p']? = some (.reports e₃) := by
    rw [hw₅, if_neg hne.symm, hw₄, if_pos rfl]
  have hw₆ (i) : x₆.workers[i]? = if i = p' then some (.reports .idle) else x₅.workers[i]? :=
    getElem?_setWorker (x := { x₅ with results := q₄ }) hp₅ _ i
  have hs₁ : x.step sha256 std (.hash p) = some x₁ := hash_eq hp hl h₀
  have hs₂ : x₁.step sha256 std (.hash p') = some x₂ := hash_eq hp₁ hl' h₁
  have ⟨(hs₃ : x₂.step sha256 std (.report p true) = some x₃), hr₃⟩ := report_eq hp₂ hq₁
  have ⟨(hs₄ : x₃.step sha256 std (.report p' true) = some x₄), hr₄⟩ := report_eq hp₃ hq₂
  have ⟨(hs₅ : x₄.step sha256 std (.report p true) = some x₅), hr₅⟩ := report_eq hp₄ hq₃
  have ⟨(hs₆ : x₅.step sha256 std (.report p' true) = some x₆), hr₆⟩ := report_eq hp₅ hq₄
  refine ⟨x₆, ?_, ?_, rfl, rfl, fun i => ?_, hz⟩
  · simp only [Verifying.overlap, Machine.run, hs₁, hs₂, hs₃, hs₄, hs₅, hs₆, Option.bind_some]
  · simp only [Verifying.overlap, returns, hs₁, hs₂, hs₃, hs₄, hs₅, hs₆, Option.elim_some, hr₃, hr₄,
      hr₅, hr₆]
    rfl
  · rw [hw₆, hw₅, hw₄, hw₃, hw₂, hw₁]
    by_cases h₁ : i = p <;> by_cases h₂ : i = p' <;> simp [h₁, h₂]

-- Two chunks of which both pieces have been stored and read.
def twinSeed : TSeedFile (List UInt8) where
  fileSize := 4
  config   := {}
  chunks   := [⟨0, 2, [21, 22]⟩, ⟨2, 2, [23, 24]⟩]
  countLt  := by decide

def twinStart : Task (List UInt8) :=
  (Task.cmdAdd id .stable twinSeed none 4 1000 [0, 1]).get (by decide +kernel)

def twinOps : List Op := [
  .piece ⟨0, 0, 0, [21, 22], by decide⟩ 11, .piece ⟨1, 0, 0, [23, 24], by decide⟩ 12,
  .io 0, .io 1, .copy 1 0, .copy 0 0, .copy 0 0, .copy 1 0, .io 0, .io 1, .io 1, .io 0, .io 0, .io 1,
  .take 0 0, .take 1 0, .hash 0, .hash 1, .hash 1, .hash 0
]

def twinReady : Verifying (List UInt8) :=
  (Machine.run (step id .stable) (start 4 twinStart) twinOps).get (by decide +kernel)

end Overlap

end Verifying

end ThinBT
