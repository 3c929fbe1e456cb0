import ThinBT.Task.Theorems.Start

namespace ThinBT

def PieceTask.isFor (t : PieceTask) (c s : Nat) : Bool :=
  t.chunkIdx.toNat = c && t.begin.toNat / subBlockSize = s

-- The worker will set the bit of the sub-block, where `accepts` says which pieces are accepted.
def Worker.carries (accepts : PieceTask → Bool) (c s : Nat) (k : Worker) : Bool :=
  (match k.stage with
    | .written t => t.isFor c s
    | _          => false) || k.queue.any fun t => t.isFor c s && accepts t

namespace Task

section Definitions

variable {δ : Type}

-- The assembler of the piece's chunk accepts it.
def accepts (τ : Task δ) (t : PieceTask) : Bool :=
  τ.assemblers[t.chunkIdx.toNat]?.any (·.accepts t.begin t.length)

def onTheWay (τ : Task δ) (c s : Nat) : Bool :=
  τ.workers.any (·.carries τ.accepts c s)

-- All queues are empty and no worker is in `on_piece`.
def Drained (τ : Task δ) : Prop :=
  ∀ k ∈ τ.workers, k = {}

-- No failed verification of the chunk is drained.
def NotReset (c : Nat) (τ : Task δ) : Op → Prop
  | .tick .. => ∀ r ∈ τ.results, r.chunkIdx = c → r.passed
  | _        => True

-- A piece for a sub-block that is not done yet is credited by the scheduler if and only if it is
-- accepted by the assembler.
def Recorded (c : Nat) (τ : Task δ) : Op → Prop
  | .piece t _ =>
    t.chunkIdx.toNat = c → t.begin.toNat / subBlockSize < τ.scheduler.subTotal c →
      ¬τ.scheduler.subDone c (t.begin.toNat / subBlockSize) →
      τ.scheduler.credits t.peerSlot = τ.accepts t
  | _          => True

instance {τ : Task δ} : (op : Op) → Decidable (NotReset c τ op)
  | .tick .. => inferInstanceAs (Decidable (∀ r ∈ τ.results, r.chunkIdx = c → r.passed))
  | .session _ | .piece .. | .io _ | .verify _ => .isTrue trivial

instance {τ : Task δ} : (op : Op) → Decidable (Recorded c τ op)
  | .piece t _ => inferInstanceAs (Decidable (t.chunkIdx.toNat = c →
      t.begin.toNat / subBlockSize < τ.scheduler.subTotal c →
      ¬τ.scheduler.subDone c (t.begin.toNat / subBlockSize) →
      τ.scheduler.credits t.peerSlot = τ.accepts t))
  | .session _ | .io _ | .verify _ | .tick .. => .isTrue trivial

end Definitions

variable {δ : Type} {τ τ' : Task δ}

theorem accepts_setAssembler {c : Nat} (ha : τ.assemblers[c]? = some a) (hf : a'.SameFrame a) :
    (τ.setAssembler c a').accepts = τ.accepts := by
  funext t
  have hc := (List.getElem?_eq_some_iff.mp ha).choose
  simp only [accepts, setAssembler, List.getElem?_set]
  split
  case isTrue he =>
    rw [← he, ha]
    exact hf.accepts
  case isFalse => rfl

theorem IoStep.accepts (h : IoStep τ w τ') : τ'.accepts = τ.accepts := by
  cases h
  case mark ha hm    => exact accepts_setAssembler ha hm.frame
  case count ha _    => exact accepts_setAssembler ha ChunkAssembler.countDown_frame
  case complete ha _ _ => exact accepts_setAssembler ha ChunkAssembler.countDown_frame
  all_goals rfl

theorem accepts_eq (ha : τ.assemblers[t.chunkIdx.toNat]? = some a) :
    τ.accepts t = a.accepts t.begin t.length := by
  rw [accepts, ha]
  rfl

structure Agreement (τ : Task δ) (c : Nat) : Prop where
  layout  : τ.Layout
  rows    : c < τ.scheduler.totalChunks → τ.scheduler.chunkSubDone.rowLength c = τ.scheduler.subTotal c
  workers : 0 < τ.workers.length
  slots   : ∀ {a}, τ.assemblers[c]? = some a → τ.scheduler.subTotal c = a.totalSlots.toNat
  agree   : ∀ {a}, τ.assemblers[c]? = some a → ∀ s < τ.scheduler.subTotal c,
    τ.scheduler.subDone c s = (a.received s || τ.onTheWay c s)

-- The step of a worker changes what is on the way only through that worker.
theorem Drained.onTheWay_eq_false (h : τ.Drained) : τ.onTheWay c s = false := by
  refine List.any_eq_false.mpr fun k hk => ?_
  rw [h k hk]
  exact Bool.false_ne_true

theorem onTheWay_setWorker (hk : τ.workers[w]? = some k) (c s : Nat) :
    ∃ r, τ.onTheWay c s = (k.carries τ.accepts c s || r) ∧
      ∀ {υ : Task δ} {k'}, υ.workers = τ.workers.set w k' → υ.accepts = τ.accepts →
        υ.onTheWay c s = (k'.carries τ.accepts c s || r) := by
  have ⟨r, ho, hs⟩ := List.any_set (p := (·.carries τ.accepts c s)) hk
  refine ⟨r, ho, fun {υ k'} hw ha => ?_⟩
  rw [onTheWay, hw, ha]
  exact hs k'

theorem eq_of_getElem?_setAssembler_of_ne {c d : Nat} (h : d ≠ c)
    (hb : (τ.setAssembler d a).assemblers[c]? = some b) (ha : τ.assemblers[c]? = some b') :
    b = b' :=
  Option.some.inj (hb.symm.trans ((getElem?_setAssembler_of_ne h).trans ha))

-- What a worker does with a piece keeps the sub-blocks that are received or on their way.
theorem IoStep.received_or_onTheWay (hl : τ.Layout) (h : IoStep τ w τ') {c : Nat}
    (ha : τ.assemblers[c]? = some a) (ha' : τ'.assemblers[c]? = some a') :
    (a'.received s || τ'.onTheWay c s) = (a.received s || τ.onTheWay c s) := by
  have hacc := h.accepts
  cases h
  case skip =>
    obtain rfl : a' = a := Option.some.inj (ha'.symm.trans ha)
    rfl
  case reject t q b hk hb hn =>
    obtain rfl : a' = a := Option.some.inj (ha'.symm.trans ha)
    have ⟨r, ho, hs⟩ := onTheWay_setWorker hk c s
    have hc : τ.accepts t = false := (accepts_eq hb).trans (by simpa using hn)
    rw [ho, hs rfl hacc]
    simp [Worker.carries, hc]
  case write t q b base hk hb hy _ _ =>
    obtain rfl : a' = a := Option.some.inj (ha'.symm.trans ha)
    have ⟨r, ho, hs⟩ := onTheWay_setWorker hk c s
    have hc : τ.accepts t = true := (accepts_eq hb).trans hy
    rw [ho, hs rfl hacc]
    simp [Worker.carries, hc]
  case mark q t b b' first hk hb hm =>
    have ⟨r, ho, hs⟩ := onTheWay_setWorker hk c s
    have hw : Worker.carries τ.accepts c s ⟨q, if first then .marked t else .idle⟩ =
        q.any fun t => t.isFor c s && τ.accepts t := by
      cases first <;> simp [Worker.carries]
    rw [ho, hs rfl hacc, hw]
    by_cases hc : t.chunkIdx.toNat = c
    case pos =>
      subst hc
      obtain rfl : a = b := Option.some.inj (ha.symm.trans hb)
      obtain rfl := eq_of_getElem?_setAssembler ha'
      have ⟨e, _, hA⟩ := hl.exists_entry ha
      have hf : t.isFor t.chunkIdx.toNat s = (s == a.slot t.begin) := by
        simp [PieceTask.isFor, hA.slot_eq, beq_eq_decide, eq_comm]
      rw [hm.received, ← hf]
      simp only [Worker.carries, Bool.or_assoc, Bool.or_left_comm]
    case neg =>
      obtain rfl := eq_of_getElem?_setAssembler_of_ne hc ha' ha
      have hf : t.isFor c s = false := by simp [PieceTask.isFor, hc]
      simp [Worker.carries, hf]
  case count q t b hk hb hp | complete q t b e hk hb hp he =>
    have ⟨r, ho, hs⟩ := onTheWay_setWorker hk c s
    have hr : a'.received s = a.received s := by
      by_cases hc : t.chunkIdx.toNat = c
      case pos =>
        subst hc
        obtain rfl : a = b := Option.some.inj (ha.symm.trans hb)
        rw [eq_of_getElem?_setAssembler ha']
        rfl
      case neg => rw [eq_of_getElem?_setAssembler_of_ne hc ha' ha]
    rw [ho, hs rfl hacc, hr]
    rfl

theorem onTheWay_dispatch (hw : 0 < τ.workers.length) :
    (τ.dispatch t).onTheWay c s = (τ.onTheWay c s || (t.isFor c s && τ.accepts t)) := by
  refine List.any_modify_or (fun k => ?_) (Nat.mod_lt _ hw)
  simp [Worker.carries, Bool.or_assoc]
  rfl

theorem Agreement.piece (h : τ.Agreement c) (hr : Recorded c τ (.piece t now))
    (ha : τ.assemblers[c]? = some a) (hs : s < τ.scheduler.subTotal c) :
    (τ.scheduler.subDone c s || (τ.scheduler.credits t.peerSlot &&
        decide (t.isFor c s ∧ s < τ.scheduler.chunkSubDone.rowLength c))) =
      (a.received s || (τ.dispatch t).onTheWay c s) := by
  have hc : c < τ.scheduler.totalChunks := by
    rw [h.layout.totalChunks, ← h.layout.count]
    exact (List.getElem?_eq_some_iff.mp ha).choose
  rw [onTheWay_dispatch h.workers, ← Bool.or_assoc, ← h.agree ha s hs, h.rows hc]
  simp only [hs, and_true, Bool.decide_eq_true]
  cases hf : t.isFor c s
  case false => simp
  case true =>
    simp only [PieceTask.isFor, Bool.and_eq_true, decide_eq_true_eq] at hf
    obtain ⟨hi, rfl⟩ := hf
    cases hd : τ.scheduler.subDone c (t.begin.toNat / subBlockSize)
    case true  => simp
    case false => simp [hr hi hs (by simp [hd])]

theorem Begins.agreement {std : StdSort} (h : τ.Begins std order) : τ.Agreement c := by
  have ⟨w, hw, ha⟩ := h.assemblers
  have init {a} (hc : τ.assemblers[c]? = some a) :
      ∃ e, τ.seed.chunks[c]? = some e ∧
        a = .init (some e.offset.toNat) e.length (.ofNat subBlockSize) := by
    have ⟨e, he, _⟩ := h.layout.exists_entry hc
    exact ⟨e, he, ((initAssemblers_spec hw ha).right c a e hc he).left⟩
  refine ⟨h.layout, h.rows, h.threads, fun {a} hc => ?_, fun {a} hc s _ => ?_⟩
  · have ⟨e, he, hi⟩ := init hc
    rw [h.subTotal he, hi]
    rfl
  · have ⟨e, he, hi⟩ := init hc
    have hr : a.received s = false := hi ▸ Bitset.bit_replicate_zero
    rw [hr, Drained.onTheWay_eq_false h.workers, h.subDone_eq_false]
    rfl

section Runs

variable [DecidableEq δ] {sha256 : List UInt8 → δ} {std : StdSort}

-- The step is a piece for the sub-block that the scheduler credits.
def credited (c s : Nat) (τ : Task δ) : Op → Bool
  | .piece t _ => τ.scheduler.credits t.peerSlot &&
    decide (t.isFor c s ∧ s < τ.scheduler.chunkSubDone.rowLength c)
  | _          => false

theorem subDone_step (hl : τ.Legal op) (hn : NotReset c τ op)
    (hs : τ.step sha256 std op = some τ') :
    τ'.scheduler.subDone c s = (τ.scheduler.subDone c s || τ.credited c s op) := by
  rw [scheduler_step hs]
  cases op
  case io | verify => exact (Bool.or_false _).symm
  case piece t now =>
    refine Scheduler.subDone_decPeerPending.trans ?_
    simp [credited, PieceTask.isFor]
  case session op =>
    refine Eq.trans (Scheduler.subDone_run (List.forall_mem_singleton.mpr ?_)) (Bool.or_false _).symm
    have hl := hl.left
    cases op <;> first | rfl | cases hl
  case tick now dead =>
    refine Eq.trans (Scheduler.subDone_run fun o ho => ?_) (Bool.or_false _).symm
    obtain rfl | ⟨r, hr, hp, rfl⟩ | ⟨_, rfl⟩ := mem_tickOps.mp ho
    case inl     => rfl
    case inr.inr => rfl
    case inr.inl =>
      refine decide_eq_true fun hc => ?_
      rw [hn r hr hc] at hp
      cases hp

theorem Agreement.step (h : τ.Agreement c) (hl : τ.Legal op) (hn : NotReset c τ op)
    (hr : Recorded c τ op) (hs : τ.step sha256 std op = some τ') : τ'.Agreement c := by
  have ht : τ'.scheduler.subTotal = τ.scheduler.subTotal := by
    rw [scheduler_step hs, Scheduler.subTotal_run]
  refine ⟨h.layout.step hs, ?_, length_workers_step hs ▸ h.workers, fun {a'} ha' => ?_,
    fun {a'} ha' s hlt => ?_⟩
  · rw [scheduler_step hs, Scheduler.totalChunks_run, Scheduler.rowLength_subDone_run,
      Scheduler.subTotal_run]
    exact h.rows
  · have ⟨a, ha, hf⟩ := frame_step hs ha'
    rw [ht, h.slots ha, hf.totalSlots]
  · rw [ht] at hlt
    rw [subDone_step hl hn hs]
    cases op
    case io w =>
      have hi := ioStep_cases hs
      have ⟨a, ha, _⟩ := hi.frame ha'
      rw [hi.received_or_onTheWay h.layout ha ha']
      exact (Bool.or_false _).trans (h.agree ha s hlt)
    case piece t now => cases hs; exact h.piece hr ha' hlt
    case verify k =>
      obtain rfl | ⟨v, base, _, _, rfl⟩ := verifyStep_cases hs
      all_goals exact (Bool.or_false _).trans (h.agree ha' s hlt)
    case session | tick =>
      cases hs
      exact (Bool.or_false _).trans (h.agree ha' s hlt)

-- At every moment at which the I/O queues are drained, the scheduler and the assembler of a chunk
-- agree on the sub-blocks that have arrived.
theorem done_flags_match_mask {c : Nat} (h₀ : τ₀.Downloads sha256 std)
    (hl : Machine.AllAt (step sha256 std)
      (fun τ op => τ.Legal op ∧ NotReset c τ op ∧ Recorded c τ op) τ₀ ops)
    (hr : Machine.run (step sha256 std) τ₀ ops = some τ) (hd : τ.Drained)
    (ha : τ.assemblers[c]? = some a) (hs : s < τ.scheduler.subTotal c) :
    τ.scheduler.subDone c s ↔ a.received s := by
  obtain ⟨order, hb⟩ := h₀.begins
  have hi : τ.Agreement c :=
    hl.invariant (Agreement · c) (fun _ _ _ hi hl hs => hi.step hl.left hl.right.left hl.right.right hs)
      hb.agreement hr
  rw [hi.agree ha s hs, hd.onTheWay_eq_false, Bool.or_false]

end Runs

section Mismatch

-- A seed with two chunks, all digests of which are the same.
def blankSeed : TSeedFile Unit where
  fileSize := 3
  config   := {}
  chunks   := [⟨0, 2, ()⟩, ⟨2, 1, ()⟩]
  countLt  := by decide

def blankStart : Task Unit :=
  (cmdAdd (fun _ => ()) .stable blankSeed none 4 1000 [0, 1]).get (by decide +kernel)

-- Both chunks are requested from the only peer.
def blankRequests : List Op := [
  .session (.onPeerAdded 0 1000), .session (.onBitfield 0 [true, true] 1),
  .session (.onChokeChange 0 false), .tick 10 false
]

-- The first chunk arrives, and a second time from a peer that is not there.
def blankDelivery : List Op := blankRequests ++ [
  .piece ⟨0, 0, 0, [5, 6], by decide⟩ 11, .io 0, .io 0,
  .piece ⟨0, 0, 5, [5, 6], by decide⟩ 12, .io 0, .io 0, .io 0
]

def blankDelivered : Task Unit :=
  (Machine.run (step (fun _ => ()) .stable) blankStart blankDelivery).get (by decide +kernel)

def blankAssembler : ChunkAssembler :=
  (blankDelivered.assemblers[0]?).get (by decide +kernel)

theorem blankDelivery_flag_matches_mask :
    blankDelivered.scheduler.subDone 0 0 ↔ blankAssembler.received 0 :=
  done_flags_match_mask (c := 0) (s := 0) (τ := blankDelivered) (a := blankAssembler)
    (.cmdAdd (Option.some_get _).symm)
    (show Machine.AllAt (step (fun _ => ()) .stable)
      (fun τ op => τ.Legal op ∧ NotReset 0 τ op ∧ Recorded 0 τ op) blankStart blankDelivery
      by decide +kernel)
    (Option.some_get _).symm (show ∀ k ∈ blankDelivered.workers, k = {} by decide +kernel)
    (Option.some_get _).symm (by decide +kernel)

-- The flag and the bit of the first chunk, if the task is drained in the end.
def flagAndBit (τ : Task Unit) : Option (Bool × Bool) :=
  if ∀ k ∈ τ.workers, k = {} then
    τ.assemblers[0]?.map fun a => (τ.scheduler.subDone 0 0, a.received 0)
  else none

-- The peer answers with the three bytes up to the end of its file, which the assembler rejects. In
-- the second run a peer that is not there sends the chunk.
theorem flag_differs_from_mask :
    (Machine.run (step (fun _ => ()) .stable) blankStart
        (blankRequests ++ [.piece ⟨0, 0, 0, [5, 6, 9], by decide⟩ 11, .io 0])).bind flagAndBit =
      some (true, false) ∧
    (Machine.run (step (fun _ => ()) .stable) blankStart
        (blankRequests ++ [.piece ⟨0, 0, 5, [5, 6], by decide⟩ 11, .io 0, .io 0, .io 0])).bind
        flagAndBit =
      some (false, true) := by
  decide +kernel

end Mismatch

end Task
end ThinBT
