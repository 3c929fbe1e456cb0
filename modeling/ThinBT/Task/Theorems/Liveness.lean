import ThinBT.Cdc.Theorems.Tiling
import ThinBT.Scheduler.Theorems.Liveness
import ThinBT.Scheduler.Theorems.Missing
import ThinBT.Task.Theorems.Overruns
import ThinBT.Task.Theorems.Progress
import ThinBT.Task.Theorems.Sound

namespace ThinBT.Task

variable {δ : Type} {τ τ' : Task δ} {source : List UInt8} {e : ChunkEntry δ} {c s : Nat}

-- What the scheduler holds as done has arrived or is on its way to the assembler.
structure Backed (τ : Task δ) (c : Nat) : Prop where
  workers : 0 < τ.workers.length
  slots   : ∀ a, τ.assemblers[c]? = some a →
    a.base.isSome ∧ τ.scheduler.subTotal c = a.totalSlots.toNat
  done    : ∀ a, τ.assemblers[c]? = some a → ∀ s, τ.scheduler.subDone c s →
    (a.received s || τ.onTheWay c s) = true

-- A chunk that has arrived as a whole is being verified or is complete.
def Claimed (τ : Task δ) (c : Nat) : Prop :=
  τ.Spent c → 0 < τ.inFlight c ∨ τ.scheduler.closed c

-- No request is pending, no piece is in a queue, and nothing is being verified.
structure Quiet (τ : Task δ) : Prop where
  silent      : τ.scheduler.Silent
  drained     : τ.Drained
  verifyTasks : τ.verifyTasks = []
  results     : τ.results = []

-- The assembler accepts what is sent for a chunk that does not overrun.
theorem Layout.accepts_honest (hl : τ.Layout) (he : τ.seed.chunks[c]? = some e)
    (ho : ¬e.Overruns source) (hp : t.IsHonest source τ.seed) (hf : t.isFor c s)
    (ha : τ.assemblers[c]? = some a) (hb : a.base.isSome) : τ.accepts t = true := by
  simp only [PieceTask.isFor, Bool.and_eq_true, decide_eq_true_eq] at hf
  obtain ⟨rfl, _⟩ := hf
  obtain ⟨s, e', he', hh⟩ := hp
  obtain rfl := Option.some.inj (he.symm.trans he')
  obtain ⟨b, hb⟩ := Option.isSome_iff_exists.mp hb
  refine (accepts_eq ha).trans (((hl.assembles ha he).accepts_iff hb hh.toMeasured).mpr ?_)
  have hd := Nat.div_add_mod e.length.toNat subBlockSize
  have hs := hh.inside
  rw [ChunkEntry.Overruns] at ho
  rw [hh.length]
  simp only [subBlockSize] at hd hs ho ⊢
  omega

theorem Sound.notReset (h : τ.Sound source) : NotReset c τ op := by
  cases op
  case tick => exact fun r hr _ => (h.results r hr).left
  all_goals trivial

-- The last of the counts that make an assembler spent starts the verification.
theorem Claimed.ioStep (h : τ.Claimed c) (hg : τ.Ledger c) (hl : τ.Layout) (hs : IoStep τ w τ') :
    τ'.Claimed c := by
  intro hS
  have old (hS : τ.Spent c) : 0 < τ'.inFlight c ∨ τ'.scheduler.closed c := by
    rw [(hS.ioStep hg hl hs).right, hs.scheduler]
    exact h hS
  by_cases hc : τ.Completing w c
  case pos =>
    obtain ⟨q, t, a, hk, rfl, ha, hp⟩ := hc
    cases hs
    case skip => exact h hS
    case complete hk' _ _ _ =>
      cases hk.symm.trans hk'
      exact .inl (inFlight_enqueueVerify ▸ Nat.succ_pos _)
    case count hk' ha' hn =>
      cases hk.symm.trans hk'
      cases ha.symm.trans ha'
      exact absurd hp hn
    case reject hk' _ _ | write hk' _ _ _ _ | mark hk' _ _ => cases hk.symm.trans hk'
  case neg =>
    refine old ?_
    cases hs.on c
    case other ha hm hf => exact hS.of_eq ha.symm hm.symm
    case mark t q a a' f hc hk ha hm =>
      subst hc
      intro b hb
      obtain rfl := Option.some.inj (ha.symm.trans hb)
      have hlt := (List.getElem?_eq_some_iff.mp ha).choose
      have he := hS a' (List.getElem?_set_self hlt)
      rw [hm.frame.totalSlots, countingOn_mark hk hm, hm.size] at he
      omega
    case count q t a hd hk ha =>
      subst hd
      intro b hb
      obtain rfl := Option.some.inj (ha.symm.trans hb)
      have hlt := (List.getElem?_eq_some_iff.mp ha).choose
      have hS := hS a.countDown.1 (List.getElem?_set_self hlt)
      have hn := countingOn_countDown hk a.countDown.1
      have hp : a.pendingCount.toNat ≠ 1 := fun hp =>
        hc ⟨q, t, a, hk, rfl, ha, UInt32.toNat_inj.mp hp⟩
      obtain ⟨e, _, hf⟩ := hl.exists_entry ha
      have ht := hf.totalSlots_le
      have hz := hf.size_le
      have he := hg.pending a ha
      have hu := a.pendingCount.toNat_lt
      change a.totalSlots.toNat + _ ≤ Bitset.size a.completedMask at hS
      omega
    case complete q t a e hd hk ha hp => exact absurd ⟨q, t, a, hk, hd, hd ▸ ha, hp⟩ hc

-- Without results for chunks that were there at the start, completions fit the scheduler's count.
theorem Progress.fits_schedulerOps (h : τ.Progress D) (hs : τ.Sound source) (hl : τ.Legal op)
    (hu : τ.Unresumed op) (std : StdSort) :
    Scheduler.AllOps std Scheduler.Fits τ.scheduler (τ.schedulerOps op) := by
  cases op
  case io | verify => trivial
  case piece       => exact ⟨trivial, trivial⟩
  case session op  =>
    refine ⟨?_, trivial⟩
    have hl := hl.left
    cases op <;> trivial
  case tick now dead =>
    have hf : τ.results.filter (!·.passed) = [] :=
      List.filter_eq_nil_iff.mpr fun r hr => by simp [(hs.results r hr).left]
    rw [schedulerOps, tickOps, hf]
    refine ⟨trivial, ?_⟩
    split
    case isTrue  => trivial
    case isFalse =>
      refine ⟨⟨?_, fun m hm hd => ?_⟩, trivial⟩
      · rw [passedMsgs, List.map_map]
        exact (nodup_results h.ledger).sublist (List.filter_sublist.map _)
      · obtain ⟨r, hr, _, rfl⟩ := mem_passedMsgs.mp hm
        have hlt := h.layout.totalChunks ▸ h.layout.results r hr
        have hd : (Scheduler.run std τ.scheduler [.tick now]).closed r.chunkIdx := hd
        obtain hd | ⟨o, ho, hd⟩ := Scheduler.of_closed_run hlt hd
        case inl =>
          rw [h.open_of_result hr (hu r hr)] at hd
          cases hd.left
        case inr =>
          rw [List.mem_singleton.mp ho] at hd
          cases hd

-- What is known about a chunk of a download that only receives honest pieces.
structure Live (source : List UInt8) (c : Nat) (τ : Task δ) : Prop where
  sound    : τ.Sound source
  progress : τ.Progress fun _ => false
  counted  : τ.scheduler.Counted
  caches   : τ.scheduler.CachesOpen
  tables   : τ.scheduler.Tables
  backed   : τ.Backed c
  claimed  : τ.Claimed c

-- An open chunk of a quiet download has a sub-block that nobody was asked for.
theorem Live.exists_unrequested (h : τ.Live source c) (hq : τ.Quiet) (hc : ¬τ.scheduler.closed c)
    (hlt : c < τ.seed.chunks.length) : ∃ s < τ.scheduler.subTotal c, ¬τ.scheduler.subReq c s := by
  by_contra hn
  have hreq (s) (hs : s < τ.scheduler.subTotal c) : τ.scheduler.subReq c s :=
    by_contra fun hr => hn ⟨s, hs, hr⟩
  obtain ⟨a, ha⟩ : ∃ a, τ.assemblers[c]? = some a :=
    ⟨_, List.getElem?_eq_getElem (h.sound.layout.count ▸ hlt)⟩
  obtain ⟨e, he, hA⟩ := h.sound.layout.exists_entry ha
  obtain ⟨_, ht⟩ := h.backed.slots _ ha
  -- All sub-blocks have arrived.
  have hall (s) (hs : s < a.totalSlots.toNat) : a.received s := by
    have hd : τ.scheduler.subDone c s := by
      refine by_contra fun hd => ?_
      obtain ⟨p, hp, hb⟩ := h.sound.shape.owned hc (hreq s (ht ▸ hs)) hd
      exact hq.silent.not_mem_begins hp hb
    simpa [hq.drained.onTheWay_eq_false] using h.backed.done _ ha s hd
  have hS : τ.Spent c := by
    intro b hb
    obtain rfl := Option.some.inj (ha.symm.trans hb)
    have hz : τ.countingOn c = 0 := by
      refine List.countP_eq_zero.mpr fun k hk => ?_
      rw [hq.drained k hk]
      exact Bool.false_ne_true
    have hbit (s) (hb : Bitset.bit a.completedMask s) : s < _ :=
      h.sound.slots ha hb
    rw [hz, Nat.add_zero]
    exact Nat.le_of_eq ((Bitset.size_eq_iff hbit hA.totalSlots_le_mask).mpr hall).symm
  obtain hf | hd := h.claimed hS
  case inl =>
    rw [inFlight, hq.verifyTasks, hq.results] at hf
    exact absurd hf (Nat.lt_irrefl 0)
  case inr => exact hc hd

theorem Quiet.scheduler_tick (h : τ.Quiet) {std : StdSort} :
    (τ.tick std now dead).scheduler = Scheduler.next std τ.scheduler (.tick now) := by
  have hm : τ.passedMsgs = [] := by
    rw [passedMsgs, h.results]
    rfl
  change Scheduler.run std τ.scheduler (τ.tickOps now) = _
  rw [tickOps, hm, h.results]
  rfl

theorem Live.exists_pending (h : τ.Live source c) (hq : τ.Quiet) {std : StdSort}
    (hcap : ∀ p ∈ τ.scheduler.peerSlots, 0 < p.pipelineCap) (hc : ¬τ.scheduler.closed c)
    (hlt : c < τ.seed.chunks.length) (hp : p ∈ τ.scheduler.peerSlots) (he : p.eligible c) :
    ∃ q ∈ (τ.tick std now dead).scheduler.peerSlots, 0 < q.pendingRequests := by
  obtain ⟨s, hs, hr⟩ := h.exists_unrequested hq hc hlt
  have hd : τ.scheduler.phase ≠ .done := fun hd =>
    (Scheduler.openCount_pos hc).ne' (h.counted.done hd)
  rw [hq.scheduler_tick]
  exact hq.silent.exists_pending h.caches h.tables hd hcap hc hs hr hp he

section Steps

variable [DecidableEq δ] {sha256 : List UInt8 → δ} {std : StdSort}

theorem Backed.step (h : τ.Backed c) (hs : τ.Sound source) (hl : τ.Legal op)
    (hp : ∀ t now, op = .piece t now → t.IsHonest source τ.seed)
    (he : τ.seed.chunks[c]? = some e) (ho : ¬e.Overruns source)
    (hst : τ.step sha256 std op = some τ') : τ'.Backed c where
  workers := length_workers_step hst ▸ h.workers
  slots a' ha' := by
    obtain ⟨a, ha, hf⟩ := frame_step hst ha'
    rw [hf.base, hf.totalSlots, scheduler_step hst, Scheduler.subTotal_run]
    exact h.slots a ha
  done a' ha' s hd := by
    rw [subDone_step hl hs.notReset hst, Bool.or_eq_true] at hd
    cases op
    case io w =>
      have hi := ioStep_cases hst
      obtain ⟨a, ha, _⟩ := hi.frame ha'
      rw [hi.received_or_onTheWay hs.layout ha ha']
      exact h.done a ha s (hd.resolve_right Bool.false_ne_true)
    case piece t now =>
      cases hst
      change (a'.received s || (τ.dispatch t).onTheWay c s) = true
      rw [onTheWay_dispatch h.workers, ← Bool.or_assoc, Bool.or_eq_true]
      obtain hd | hd := hd
      case inl => exact .inl (h.done a' ha' s hd)
      case inr =>
        have hf := (of_decide_eq_true (Bool.and_eq_true_iff.mp hd).right).left
        have hacc := hs.layout.accepts_honest he ho (hp t now rfl) hf ha' (h.slots a' ha').left
        exact .inr (Bool.and_eq_true_iff.mpr ⟨hf, hacc⟩)
    case verify k =>
      have hd := hd.resolve_right Bool.false_ne_true
      obtain rfl | ⟨v, base, _, _, rfl⟩ := verifyStep_cases hst
      all_goals exact h.done a' ha' s hd
    case session | tick =>
      cases hst
      exact h.done a' ha' s (hd.resolve_right Bool.false_ne_true)

theorem Claimed.step (h : τ.Claimed c) (hs : τ.Sound source) (hl : τ.Legal op)
    (hc : c < τ.seed.chunks.length) (hst : τ.step sha256 std op = some τ') : τ'.Claimed c := by
  have keep (hd : τ.scheduler.closed c) : τ'.scheduler.closed c := by
    refine (hs.layout.indexed.closed_step hl.calls hst hc fun _ r hr hf => ?_).mpr (.inl hd)
    rw [(hs.results r hr).left] at hf
    cases hf
  cases op
  case io w    => exact h.ioStep (hs.ledger c) hs.layout (ioStep_cases hst)
  case session => cases hst; exact fun hS => (h hS).imp id keep
  case piece   =>
    cases hst
    exact fun hS => (h (hS.of_eq rfl countingOn_dispatch.symm)).imp id keep
  case verify k =>
    obtain rfl | ⟨v, base, hv, _, rfl⟩ := verifyStep_cases hst
    case inl => exact h
    case inr =>
      intro hS
      rw [inFlight_verified hv rfl]
      exact h hS
  case tick now dead =>
    cases hst
    intro hS
    obtain hf | hd := h hS
    case inr => exact .inr (keep hd)
    case inl =>
      by_cases hv : 0 < τ.verifyTasks.countP (·.chunkIdx = c)
      case pos => exact .inl (Nat.add_pos_left hv _)
      case neg =>
        have hr : 0 < τ.results.countP (·.chunkIdx = c) := by
          rw [inFlight] at hf
          omega
        obtain ⟨r, hr, he⟩ := List.countP_pos_iff.mp hr
        refine .inr ((hs.layout.indexed.closed_tick hc now dead).mpr (.inr ⟨r, hr, ?_⟩))
        exact ⟨of_decide_eq_true he, (hs.results r hr).left⟩

theorem Live.step (h : τ.Live source c) (hs : τ.seed.SeedOf sha256 source) (hl : τ.Legal op)
    (hu : τ.Unresumed op) (hp : ∀ t now, op = .piece t now → t.IsHonest source τ.seed)
    (he : τ.seed.chunks[c]? = some e) (ho : ¬e.Overruns source)
    (hst : τ.step sha256 std op = some τ') : τ'.Live source c where
  sound    := h.sound.step hs hl hp hst
  progress := h.progress.step_unresumed hl.calls hu hst
  counted  := by
    rw [scheduler_step hst]
    exact h.counted.run (h.progress.fits_schedulerOps h.sound hl hu std)
  caches   := by
    rw [scheduler_step hst]
    exact (h.sound.layout.indexed.inRange_schedulerOps hl.calls).invariant
      (fun _ _ => Scheduler.CachesOpen.next) h.caches
  tables   := by
    rw [scheduler_step hst]
    exact (h.sound.layout.indexed.inRange_schedulerOps hl.calls).invariant
      (fun _ _ => Scheduler.Tables.next) h.tables
  backed   := h.backed.step h.sound hl hp he ho hst
  claimed  := h.claimed.step h.sound hl (List.getElem?_eq_some_iff.mp he).choose hst

theorem Added.backed (h : Added sha256 std existing speed order τ)
    (he : τ.seed.chunks[c]? = some e) : τ.Backed c := by
  obtain ⟨w, hw, ha⟩ := h.assemblers
  have init {a} (hc : τ.assemblers[c]? = some a) :=
    ((initAssemblers_spec hw ha).right c a e hc he).left
  refine ⟨h.threads, fun a ha => ?_, fun a _ s hd => ?_⟩
  · rw [init ha, h.scheduler, Scheduler.subTotal_run, Scheduler.subTotal_start (sizesOf_eq_some he)]
    exact ⟨rfl, rfl⟩
  · rw [h.begins.subDone_eq_false] at hd
    cases hd

theorem Added.claimed (h : Added sha256 std existing speed order τ)
    (hs : τ.seed.SeedOf sha256 source) (he : τ.seed.chunks[c]? = some e) : τ.Claimed c := by
  intro hS
  obtain ⟨w, hw, ha⟩ := h.assemblers
  obtain ⟨a, hc⟩ : ∃ a, τ.assemblers[c]? = some a :=
    ⟨_, List.getElem?_eq_getElem (h.layout.count ▸ (List.getElem?_eq_some_iff.mp he).choose)⟩
  obtain ⟨hi, _, hm⟩ := (initAssemblers_spec hw ha).right c a e hc he
  have hpos := hs.partitioned.sizeAt_pos (List.getElem?_eq_some_iff.mp he).choose
  rw [TSeedFile.sizeAt, he] at hpos
  have ht : 0 < a.totalSlots.toNat :=
    ((h.layout.assembles hc he).lt_totalSlots_iff hm).mpr (by simpa using hpos)
  have hz : Bitset.size a.completedMask = 0 := by
    rw [hi]
    exact Bitset.size_replicate_zero
  have hle := hS a hc
  omega

theorem Added.counted (h : Added sha256 std existing speed order τ) : τ.scheduler.Counted := by
  rw [h.scheduler]
  refine Scheduler.counted_start.run ⟨trivial, ?_⟩
  rw [resumeOps]
  split
  case isFalse => exact ⟨trivial, trivial, trivial⟩
  case isTrue  =>
    refine ⟨fun c hc _ _ => ?_, trivial, trivial, trivial⟩
    have hc : c < (List.replicate τ.seed.chunkCount.toNat ChunkState.missing).length := hc
    exact (List.getElem?_replicate ..).trans (if_pos (by simpa using hc))

theorem Added.live (h : Added sha256 std existing speed order τ) (hp : τ.Progress fun _ => false)
    (ho : order.Perm (.range τ.seed.chunks.length)) (hs : τ.seed.SeedOf sha256 source)
    (hcf : τ.seed.CollisionFree sha256 source) (he : τ.seed.chunks[c]? = some e) :
    τ.Live source c := by
  have ho' : order.Perm (.range τ.seed.chunkCount.toNat) := by rwa [TSeedFile.toNat_chunkCount]
  have hl : Scheduler.AllOps std Scheduler.InRange
      (Scheduler.start τ.seed.chunkCount speed (sizesOf τ.seed))
      (openingOps (0 < bytesOf τ.seed (initBf sha256 τ.seed existing))
        (initBf sha256 τ.seed existing) order) :=
    (legal_openingOps ho').mono fun _ _ => .inl
  refine ⟨h.sound ho hs hcf, hp, h.counted, ?_, ?_, h.backed he, h.claimed hs he⟩
  · rw [h.scheduler]
    exact hl.invariant (fun _ _ => Scheduler.CachesOpen.next) Scheduler.cachesOpen_start
  · rw [h.scheduler]
    exact hl.invariant (fun _ _ => Scheduler.Tables.next) Scheduler.tables_start

end Steps

section Handover

-- Each chunk has one byte. Chunks are their own digests.
def handoverSeed : TSeedFile (List UInt8) where
  fileSize := 2
  config   := { minSize := 1, avgSize := 1, maxSize := 1 }
  chunks   := [⟨0, 1, [41]⟩, ⟨1, 1, [42]⟩]
  countLt  := by decide

def handoverStart : Task (List UInt8) :=
  (cmdAdd id .stable handoverSeed none 4 1000 [0, 1]).get (by decide +kernel)

-- Both chunks are requested from a peer that answers the first request and leaves, and another peer
-- arrives.
def handover : List Op := [
  .session (.onPeerAdded 0 1000), .session (.onBitfield 0 [true, true] 1),
  .session (.onChokeChange 0 false), .tick 10 false,
  .piece ⟨0, 0, 0, [41, 42], by decide⟩ 11, .io 0, .session (.onPeerRemoved 0),
  .session (.onPeerAdded 1 1000), .session (.onBitfield 1 [true, true] 12),
  .session (.onChokeChange 1 false)
]

def handedOver : Task (List UInt8) :=
  (Machine.run (step id .stable) handoverStart handover).get (by decide +kernel)

end Handover

end ThinBT.Task
