import ThinBT.Task.Theorems.Ledger

namespace ThinBT.Task

variable {δ : Type} {τ τ' : Task δ}

-- The next stage of the worker is the end of a call of `on_piece` that returns true.
def Completing (τ : Task δ) (w c : Nat) : Prop :=
  ∃ q t a, τ.workers[w]? = some ⟨q, .marked t⟩ ∧ t.chunkIdx.toNat = c ∧
    τ.assemblers[c]? = some a ∧ a.pendingCount = 1

theorem Ledger.not_completing (h : τ.Ledger c) (hl : τ.Layout) (hs : τ.Spent c) :
    ¬τ.Completing w c := by
  rintro ⟨q, t, a, hk, rfl, ha, hp⟩
  have := h.last_count hl ha hp
  have := hs a ha
  omega

-- Once an assembler has counted down, no step starts a verification of its chunk.
theorem Spent.ioStep (h : τ.Spent c) (hg : τ.Ledger c) (hl : τ.Layout) (hs : IoStep τ w τ') :
    τ'.Spent c ∧ τ'.inFlight c = τ.inFlight c := by
  cases hs.on c
  case other ha hm hf           => exact ⟨h.of_eq ha hm, hf⟩
  case mark t q a a' f hc hk ha hm => subst hc; exact ⟨h.mark hk ha hm, rfl⟩
  case count t q a hc hk ha     => subst hc; exact ⟨h.countDown hk ha, rfl⟩
  case complete q t a e hc hk ha hp =>
    subst hc
    exact absurd ⟨q, t, a, hk, rfl, ha, hp⟩ (hg.not_completing hl h)

structure Accounted (τ : Task δ) (c : Nat) : Prop where
  layout : τ.Layout
  ledger : τ.Ledger c

-- A chunk whose only verification is over.
structure Settled (τ : Task δ) (c : Nat) : Prop where
  spent    : τ.Spent c
  inFlight : τ.inFlight c = 0

theorem Settled.not_mem_verifyTasks (h : τ.Settled c) : ∀ v ∈ τ.verifyTasks, v.chunkIdx ≠ c := by
  intro v hv hc
  have hp : 0 < τ.verifyTasks.countP (·.chunkIdx = c) :=
    List.countP_pos_iff.mpr ⟨v, hv, decide_eq_true hc⟩
  have hz : _ + _ = 0 := h.inFlight
  omega

theorem Settled.not_mem_results (h : τ.Settled c) : ∀ r ∈ τ.results, r.chunkIdx ≠ c := by
  intro r hr hc
  have hp : 0 < τ.results.countP (·.chunkIdx = c) :=
    List.countP_pos_iff.mpr ⟨r, hr, decide_eq_true hc⟩
  have hz : _ + _ = 0 := h.inFlight
  omega

theorem Settled.tick {std : StdSort} (h : τ.Settled c) : (τ.tick std now dead).Settled c :=
  ⟨h.spent, Nat.le_zero.mp (h.inFlight ▸ Nat.add_le_add_left (Nat.zero_le _) _)⟩

-- A verification that has a result is over once the result is drained.
theorem Ledger.settled_tick {std : StdSort} (h : τ.Ledger c) (hr : r ∈ τ.results)
    (hc : r.chunkIdx = c) : (τ.tick std now dead).Settled c := by
  have hp : 0 < τ.results.countP (·.chunkIdx = c) :=
    List.countP_pos_iff.mpr ⟨r, hr, decide_eq_true hc⟩
  have ho : τ.verifyTasks.countP (·.chunkIdx = c) + τ.results.countP (·.chunkIdx = c) ≤ 1 :=
    h.once
  refine ⟨(h.spent (by unfold inFlight; omega)).of_eq rfl rfl, ?_⟩
  change τ.verifyTasks.countP (·.chunkIdx = c) + 0 = 0
  omega

-- A chunk whose only verification has failed.
structure Doomed (τ : Task δ) (c : Nat) : Prop extends Accounted τ c where
  chunk    : c < τ.seed.chunks.length
  spent    : τ.Spent c
  inFlight : τ.inFlight c = 0
  missing  : ¬τ.scheduler.closed c

theorem Doomed.settled (h : τ.Doomed c) : τ.Settled c :=
  ⟨h.spent, h.inFlight⟩

theorem Doomed.not_completing (h : τ.Doomed c) : ¬τ.Completing w c :=
  h.ledger.not_completing h.layout h.spent

theorem eq_of_countP_le_one {l : List α} {p : α → Bool} (h : l.countP p ≤ 1) (hx : x ∈ l)
    (hy : y ∈ l) (px : p x) (py : p y) : x = y := by
  rw [List.countP_eq_length_filter] at h
  have hx := List.mem_filter.mpr ⟨hx, px⟩
  have hy := List.mem_filter.mpr ⟨hy, py⟩
  generalize l.filter p = m at h hx hy
  match m, h with
  | [], _  => cases hx
  | [z], _ => rw [List.mem_singleton.mp hx, List.mem_singleton.mp hy]

theorem Ledger.eq_of_mem_results (h : τ.Ledger c) (hr : r ∈ τ.results) (hr' : r' ∈ τ.results)
    (hc : r.chunkIdx = c) (hc' : r'.chunkIdx = c) : r = r' := by
  have ho : _ + _ ≤ 1 := h.once
  exact eq_of_countP_le_one (p := (·.chunkIdx = c)) (by omega) hr hr' (decide_eq_true hc)
    (decide_eq_true hc')

-- The first failed verification of a chunk is its only verification.
theorem Accounted.doomed_tick {std : StdSort} (h : τ.Accounted c) (hr : r ∈ τ.results)
    (hc : r.chunkIdx = c) (hf : r.passed = false) : (τ.tick std now dead).Doomed c := by
  have hC : c < τ.seed.chunks.length := hc ▸ h.layout.results r hr
  have hs : (τ.tick std now dead).Settled c := h.ledger.settled_tick hr hc
  refine ⟨⟨h.layout.tick, h.ledger.tick⟩, hC, hs.spent, hs.inFlight, ?_⟩
  · intro hd
    obtain ⟨_, hn⟩ | ⟨op, hm, hd⟩ := Scheduler.of_closed_run (h.layout.totalChunks ▸ hC) hd
    case inl =>
      have hm : Scheduler.Op.onVerifyFailed c ∈ τ.tickOps now :=
        mem_tickOps.mpr (.inr (.inl ⟨r, hr, hf, by rw [hc]⟩))
      simpa [Scheduler.Op.reopens] using hn _ hm
    case inr =>
      have hl : Calls (.tick now dead) := trivial
      obtain ⟨r', hr', hc', hp'⟩ := (passed_of_completes hl hm hd).right
      rw [← h.ledger.eq_of_mem_results hr hr' hc hc', hf] at hp'
      cases hp'

section Failed

variable [DecidableEq δ] {sha256 : List UInt8 → δ} {std : StdSort}

theorem Accounted.step (h : τ.Accounted c) (hs : τ.step sha256 std op = some τ') : τ'.Accounted c :=
  ⟨h.layout.step hs, h.ledger.step h.layout hs⟩

theorem Settled.step (h : τ.Settled c) (hA : τ.Accounted c)
    (hs : τ.step sha256 std op = some τ') : τ'.Settled c := by
  cases op
  case session => cases hs; exact ⟨h.spent, h.inFlight⟩
  case piece   => cases hs; exact ⟨h.spent.of_eq rfl countingOn_dispatch, h.inFlight⟩
  case io w =>
    have ⟨hS, hF⟩ := h.spent.ioStep hA.ledger hA.layout (ioStep_cases hs)
    exact ⟨hS, hF.trans h.inFlight⟩
  case verify k =>
    obtain rfl | ⟨v, base, hv, _, rfl⟩ := verifyStep_cases hs
    case inl => exact h
    case inr => exact ⟨h.spent, (inFlight_verified hv rfl).trans h.inFlight⟩
  case tick now dead => cases hs; exact h.tick

theorem Doomed.step (h : τ.Doomed c) (hl : τ.Legal op) (hs : τ.step sha256 std op = some τ') :
    τ'.Doomed c := by
  have hS := h.settled.step h.toAccounted hs
  refine ⟨h.toAccounted.step hs, seed_step hs ▸ h.chunk, hS.spent, hS.inFlight, fun hc => ?_⟩
  obtain hc | ⟨r, hr, he, _⟩ := h.layout.of_closed_step hl.calls hs h.chunk hc
  case inl => exact h.missing hc
  case inr => exact h.settled.not_mem_results r hr he

-- A chunk whose verification has failed is never completed, whatever is delivered afterwards: the
-- mask and the counter of its assembler keep the state in which every slot is complete.
theorem failed_chunk_is_never_completed (h₀ : τ₀.Downloads sha256 std)
    (hl : Machine.AllAt (step sha256 std) Legal τ₀ (before ++ .tick now dead :: after))
    (hb : Machine.run (step sha256 std) τ₀ before = some τ)
    (hr : r ∈ τ.results) (hf : r.passed = false)
    (ha : Machine.run (step sha256 std) τ (.tick now dead :: after) = some τ') :
    τ'.scheduler.chunkStates[r.chunkIdx]? ≠ some .complete ∧
      (∀ v ∈ τ'.verifyTasks, v.chunkIdx ≠ r.chunkIdx) ∧ ∀ w, ¬τ'.Completing w r.chunkIdx := by
  have ⟨hlb, _, hla⟩ := hl.append hb
  have hinv : τ.Accounted r.chunkIdx :=
    hlb.invariant (Accounted · r.chunkIdx) (fun _ _ _ hi _ hs => hi.step hs)
      ⟨h₀.opened.layout, h₀.opened.fresh.ledger⟩ hb
  obtain ⟨τ₁, ht, ha⟩ := Machine.run_cons.mp ha
  obtain rfl := Option.some.inj ht
  have hd : (τ.tick std now dead).Doomed r.chunkIdx := hinv.doomed_tick hr rfl hf
  have hd : τ'.Doomed r.chunkIdx :=
    (hla _ rfl).invariant (Doomed · r.chunkIdx) (fun _ _ _ hi hl hs => hi.step hl hs) hd ha
  refine ⟨fun hc => hd.missing ?_, hd.settled.not_mem_verifyTasks, fun w => hd.not_completing⟩
  exact Scheduler.closed_iff.mpr (.inr hc)

end Failed

section Redelivery

-- A seed with one chunk of two bytes. Chunks are their own digests.
def tinySeed : TSeedFile (List UInt8) where
  fileSize := 2
  config   := {}
  chunks   := [⟨0, 2, [7, 8]⟩]
  countLt  := by decide

-- A peer delivers the chunk with wrong bytes.
def corruptedDelivery : List Op := [
  .session (.onPeerAdded 0 1000), .session (.onBitfield 0 [true] 1),
  .session (.onChokeChange 0 false), .tick 10 false,
  .piece ⟨0, 0, 0, [1, 2], by decide⟩ 11, .io 0, .io 0, .io 0, .verify 0
]

-- The chunk is requested again and delivered again.
def redelivery : List Op := [
  .tick 30 false, .piece ⟨0, 0, 0, [7, 8], by decide⟩ 31, .io 0, .io 0, .io 0, .verify 0,
  .tick 40 false
]

def tinyStart : Task (List UInt8) :=
  (cmdAdd id .stable tinySeed none 4 1000 [0]).get (by decide +kernel)

def tinyFailed : Task (List UInt8) :=
  (Machine.run (step id .stable) tinyStart corruptedDelivery).get (by decide +kernel)

def tinyRetried : Task (List UInt8) :=
  (Machine.run (step id .stable) tinyFailed (.tick 20 false :: redelivery)).get (by decide +kernel)

theorem redelivery_is_never_completed :
    tinyRetried.scheduler.chunkStates[0]? ≠ some .complete ∧
      (∀ v ∈ tinyRetried.verifyTasks, v.chunkIdx ≠ 0) ∧ ∀ w, ¬tinyRetried.Completing w 0 :=
  failed_chunk_is_never_completed (r := ⟨0, 0, false⟩) (.cmdAdd (Option.some_get _).symm)
    (show Machine.AllAt (step id .stable) Legal tinyStart
      (corruptedDelivery ++ .tick 20 false :: redelivery) by decide +kernel)
    (Option.some_get _).symm (by decide +kernel) rfl (Option.some_get _).symm

-- After the failure the sub-block is requested again and the right bytes arrive and are stored. The
-- chunk is neither complete nor on its way to be verified.
theorem redelivered_chunk_is_not_completed :
    tinyFailed.results = [⟨0, 0, false⟩] ∧
      (Machine.run (step id .stable) tinyFailed [.tick 20 false, .tick 30 false]).map
        (·.scheduler.peerSlots.map (·.begins 0)) = some [SortedSet.insert ∅ 0] ∧
      tinyRetried.file = [7, 8] ∧ tinyRetried.verifyTasks = [] ∧ tinyRetried.results = [] ∧
      tinyRetried.scheduler.chunkStates = [.downloading] := by
  decide +kernel

end Redelivery

end ThinBT.Task
