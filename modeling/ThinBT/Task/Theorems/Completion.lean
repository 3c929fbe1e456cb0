import ThinBT.Task.Theorems.Progress
import ThinBT.Task.Theorems.Sound
import ThinBT.Scheduler.Theorems.Callbacks

namespace ThinBT

def Scheduler.Call.requests (slot c b : Nat) : Call → Bool
  | .issueRequest slot' c' b' _ => slot' = slot && c' = c && b' = b
  | _                           => false

-- The pieces that a worker is still to process.
def Stage.piece : Stage → Option PieceTask
  | .idle                  => none
  | .written t | .marked t => some t

def Worker.Has (k : Worker) (t : PieceTask) : Prop :=
  t ∈ k.stage.piece ∨ t ∈ k.queue

-- A task together with the calls that its scheduler has made.
structure Recorded (δ : Type) where
  task  : Task δ
  calls : List Scheduler.Call := []

namespace Recorded

section Definitions

variable {δ : Type}

def step [DecidableEq δ] (sha256 : List UInt8 → δ) (std : StdSort) (x : Recorded δ) (op : Task.Op) :
    Option (Recorded δ) :=
  (x.task.step sha256 std op).map fun τ =>
    ⟨τ, x.calls ++ Scheduler.callbacks std x.task.scheduler (x.task.schedulerOps op)⟩

-- Peers only send pieces that were requested from them.
def Requested (x : Recorded δ) : Task.Op → Prop
  | .piece t _  => x.calls.any (·.requests t.peerSlot t.chunkIdx.toNat t.begin.toNat)
  | .session op => Task.sessionCall op
  | _           => True

instance {x : Recorded δ} : (op : Task.Op) → Decidable (x.Requested op)
  | .piece t _  => inferInstanceAs (Decidable
      (x.calls.any (·.requests t.peerSlot t.chunkIdx.toNat t.begin.toNat)))
  | .session op => inferInstanceAs (Decidable (Task.sessionCall op))
  | .io _ | .verify _ | .tick .. => .isTrue trivial

-- The retries of the tracker client do not run out while the task is incomplete.
def Alive (x : Recorded δ) : Task.Op → Prop
  | .tick _ dead => dead = true → x.task.state = .downloading →
    x.task.seed.fileSize ≤ x.task.creditBytes
  | _            => True

instance {x : Recorded δ} : (op : Task.Op) → Decidable (x.Alive op)
  | .tick _ dead => inferInstanceAs (Decidable (dead = true → x.task.state = .downloading →
      x.task.seed.fileSize ≤ x.task.creditBytes))
  | .session _ | .piece .. | .io _ | .verify _ => .isTrue trivial

end Definitions

variable {δ : Type} {x x' : Recorded δ}

theorem Requested.calls (h : x.Requested op) : Task.Calls op := by
  cases op
  case session => exact h
  all_goals trivial

end Recorded

namespace Task

variable {δ : Type} {τ τ' : Task δ}

-- Nothing of the chunk is on its way to a verification.
structure Avoids (τ : Task δ) (c : Nat) : Prop where
  workers     : ∀ k ∈ τ.workers, ∀ t, k.Has t → t.chunkIdx.toNat ≠ c
  verifyTasks : ∀ v ∈ τ.verifyTasks, v.chunkIdx ≠ c
  results     : ∀ r ∈ τ.results, r.chunkIdx ≠ c

theorem Fresh.avoids (h : τ.Fresh) : τ.Avoids c where
  workers k hk t ht := by
    rw [h.workers k hk] at ht
    obtain ht | ht := ht
    all_goals cases ht
  verifyTasks := h.verifyTasks ▸ List.forall_mem_nil _
  results     := h.results ▸ List.forall_mem_nil _

theorem IoStep.has (hs : IoStep τ w τ') (hk : k' ∈ τ'.workers) (ht : k'.Has t) :
    ∃ k ∈ τ.workers, k.Has t := by
  have set {k₀ k₁ : Worker} (hk₀ : τ.workers[w]? = some k₀) (hk : k' ∈ τ.workers.set w k₁)
      (hq : k₁.Has t → k₀.Has t) : ∃ k ∈ τ.workers, k.Has t := by
    obtain hk | rfl := List.mem_or_eq_of_mem_set hk
    case inl => exact ⟨k', hk, ht⟩
    case inr => exact ⟨k₀, List.mem_of_getElem? hk₀, hq ht⟩
  cases hs
  case skip => exact ⟨k', hk, ht⟩
  case reject hk₀ _ _ =>
    refine set hk₀ hk fun ht => .inr (List.mem_cons_of_mem _ (ht.resolve_left fun h => ?_))
    cases h
  case write hk₀ _ _ _ _ =>
    refine set hk₀ hk fun ht => .inr ?_
    obtain ht | ht := ht
    case inl => exact Option.some.inj ht ▸ List.mem_cons_self
    case inr => exact List.mem_cons_of_mem _ ht
  case mark first hk₀ _ _ =>
    refine set hk₀ hk fun ht => ht.imp (fun ht => ?_) id
    cases first
    case true  => exact ht
    case false => cases ht
  case count hk₀ _ _ =>
    refine set hk₀ hk fun ht => .inr (ht.resolve_left fun h => ?_)
    cases h
  case complete hk₀ _ _ _ =>
    refine set hk₀ hk fun ht => .inr (ht.resolve_left fun h => ?_)
    cases h

theorem IoStep.verifyTask (hs : IoStep τ w τ') (hv : v ∈ τ'.verifyTasks) :
    v ∈ τ.verifyTasks ∨ ∃ k ∈ τ.workers, ∃ t, k.Has t ∧ v.chunkIdx = t.chunkIdx.toNat := by
  cases hs
  case complete q t a e hk _ _ _ =>
    obtain hv | hv := List.mem_append.mp hv
    case inl => exact .inl hv
    case inr =>
      refine .inr ⟨_, List.mem_of_getElem? hk, t, .inl rfl, ?_⟩
      rw [List.mem_singleton.mp hv]
  all_goals exact .inl hv

theorem Avoids.dispatch (h : τ.Avoids c) (ht : t.chunkIdx.toNat ≠ c) : (τ.dispatch t).Avoids c where
  verifyTasks := h.verifyTasks
  results     := h.results
  workers k hk u hu := by
    obtain ⟨k₀, hk₀, hq, hst⟩ := mem_dispatch hk
    obtain hu | hu := hu
    case inl => exact h.workers k₀ hk₀ u (.inl (hst ▸ hu))
    case inr =>
      obtain hu | rfl := hq u hu
      case inl => exact h.workers k₀ hk₀ u (.inr hu)
      case inr => exact ht

section Steps

variable [DecidableEq δ] {sha256 : List UInt8 → δ} {std : StdSort}

theorem Avoids.step (h : τ.Avoids c) (hp : ∀ t now, op = .piece t now → t.chunkIdx.toNat ≠ c)
    (hs : τ.step sha256 std op = some τ') : τ'.Avoids c := by
  cases op
  case session     => cases hs; exact ⟨h.workers, h.verifyTasks, h.results⟩
  case piece t now =>
    cases hs
    have hd := h.dispatch (hp t now rfl)
    exact ⟨hd.workers, hd.verifyTasks, hd.results⟩
  case io w =>
    have hs := ioStep_cases hs
    refine ⟨fun k hk t ht => ?_, fun v hv => ?_, hs.results ▸ h.results⟩
    · obtain ⟨k₀, hk₀, ht⟩ := hs.has hk ht
      exact h.workers k₀ hk₀ t ht
    · obtain hv | ⟨k, hk, t, ht, he⟩ := hs.verifyTask hv
      case inl => exact h.verifyTasks v hv
      case inr => exact he ▸ h.workers k hk t ht
  case verify k =>
    obtain rfl | ⟨v, base, hv, _, rfl⟩ := verifyStep_cases hs
    case inl => exact h
    case inr =>
      refine ⟨h.workers, fun v hv => h.verifyTasks v (List.mem_of_mem_eraseIdx hv), fun r hr => ?_⟩
      obtain hr | hr := List.mem_append.mp hr
      case inl => exact h.results r hr
      case inr =>
        rw [List.mem_singleton.mp hr]
        exact h.verifyTasks v (List.mem_of_getElem? hv)
  case tick => cases hs; exact ⟨h.workers, h.verifyTasks, List.forall_mem_nil _⟩

end Steps

theorem state_tick {std : StdSort} : (τ.tick std now dead).state =
    if τ.state = .downloading then
      if τ.seed.fileSize ≤ τ.creditBytes then .complete
      else if dead then .waiting else .downloading
    else τ.state := by
  unfold tick
  by_cases hs : τ.state = .downloading <;> by_cases hb : τ.seed.fileSize ≤ τ.creditBytes <;>
    cases dead <;> simp [hs, hb]

theorem of_complete_tick {std : StdSort} (h : (τ.tick std now dead).state = .complete) :
    τ.state = .complete ∨ τ.seed.fileSize ≤ τ.creditBytes := by
  rw [state_tick] at h
  split at h
  case isFalse => exact .inl h
  case isTrue =>
    split at h
    case isTrue hb => exact .inr hb
    case isFalse   => split at h <;> cases h

theorem of_seeding_tick {std : StdSort} (h : (τ.tick std now dead).state = .seeding) :
    τ.state = .seeding := by
  rw [state_tick] at h
  split at h
  case isFalse => exact h
  case isTrue =>
    split at h
    case isTrue  => cases h
    case isFalse => split at h <;> cases h

theorem waiting_tick_iff {std : StdSort} : (τ.tick std now dead).state = .waiting ↔
    τ.state = .waiting ∨ dead = true ∧ τ.state = .downloading ∧ ¬τ.seed.fileSize ≤ τ.creditBytes := by
  rw [state_tick]
  by_cases hb : τ.seed.fileSize ≤ τ.creditBytes <;> cases hs : τ.state <;> cases dead <;> simp [hb]

-- With all bytes a task is complete after a tick, unless it waits.
theorem complete_tick {std : StdSort} (hb : τ.seed.fileSize ≤ τ.creditBytes)
    (hs : τ.state ≠ .seeding) (hw : τ.state ≠ .waiting) :
    (τ.tick std now dead).state = .complete := by
  rw [state_tick]
  cases h : τ.state <;> simp_all

end Task

namespace Recorded

variable {δ : Type} {x x' : Recorded δ}

-- Nobody has been asked for the chunk, and nothing of it has arrived.
structure Untouched (x : Recorded δ) (c : Nat) : Prop where
  closed : x.task.scheduler.closed c
  calls  : ∀ slot b len, .issueRequest slot c b len ∉ x.calls
  avoids : x.task.Avoids c

theorem Requested.chunk_ne (h : x.Requested (.piece t now)) (hu : x.Untouched c) :
    t.chunkIdx.toNat ≠ c := by
  intro hc
  obtain ⟨y, hy, hq⟩ := List.any_eq_true.mp h
  cases y
  case issueRequest slot c' b len =>
    simp only [Scheduler.Call.requests, Bool.and_eq_true, decide_eq_true_eq] at hq
    obtain ⟨⟨_, rfl⟩, _⟩ := hq
    exact hu.calls slot b len (hc ▸ hy)
  all_goals cases hq

-- What holds as long as peers only send what was requested.
structure Tracked (x : Recorded δ) : Prop where
  partitioned : x.task.seed.Partitioned
  progress    : x.task.Progress fun _ => false
  untouched   : ∀ c < x.task.seed.chunks.length, x.task.initialBitfield.getD c false → x.Untouched c
  complete    : x.task.state = .complete →
    ∀ c < x.task.seed.chunks.length, x.task.scheduler.closed c
  notSeeding  : x.task.state ≠ .seeding

theorem Tracked.unresumed (h : x.Tracked) (op : Task.Op) : x.task.Unresumed op := by
  cases op
  case tick =>
    refine fun r hr => eq_false_of_ne_true fun hb => ?_
    exact (h.untouched _ (h.progress.layout.results r hr) hb).avoids.results r hr rfl
  all_goals trivial

section Steps

variable [DecidableEq δ] {sha256 : List UInt8 → δ} {std : StdSort}

theorem step_cases (hs : x.step sha256 std op = some x') :
    x.task.step sha256 std op = some x'.task ∧
      x'.calls = x.calls ++ Scheduler.callbacks std x.task.scheduler (x.task.schedulerOps op) := by
  obtain ⟨τ', ht, rfl⟩ := Option.map_eq_some_iff.mp hs
  exact ⟨ht, rfl⟩

theorem Untouched.step (h : x.Untouched c) (hl : x.task.Layout) (hq : x.Requested op)
    (hs : x.step sha256 std op = some x') : x'.Untouched c := by
  obtain ⟨hs, hc⟩ := step_cases hs
  have hr : ∀ o ∈ x.task.schedulerOps op, o.reopens c = false := by
    refine fun o ho => eq_false_of_ne_true fun hr => ?_
    obtain ⟨_, r, hr, he, _⟩ := Task.failed_of_reopens hq.calls ho hr
    exact h.avoids.results r hr he
  have hi : Scheduler.AllOps std _ _ _ := hl.indexed.inRange_schedulerOps hq.calls
  refine ⟨?_, fun slot b len hm => ?_, h.avoids.step ?_ hs⟩
  · exact Task.scheduler_step hs ▸ Scheduler.closed_run hi hr h.closed
  · obtain hm | hm := List.mem_append.mp (hc ▸ hm)
    case inl => exact h.calls slot b len hm
    case inr => exact Scheduler.not_requested_of_closed hi hr h.closed hm
  · rintro t now rfl
    exact hq.chunk_ne h

theorem tracked_start {τ : Task δ} (h : τ.Downloads sha256 std) (hp : τ.seed.Partitioned) :
    Tracked ⟨τ, []⟩ where
  partitioned := hp
  progress    := h.opened.progress (h.credited hp)
  untouched   := fun c hc hb =>
    ⟨((h.credited hp).closed c hc).trans hb, fun _ _ _ => List.not_mem_nil, h.opened.fresh.avoids⟩
  complete hs := by
    have hs : τ.state = .complete := hs
    rw [h.state] at hs
    cases hs
  notSeeding  := by
    change τ.state ≠ _
    rw [h.state]
    exact TaskState.noConfusion

theorem Tracked.complete_step (h : x.Tracked) (hl : Task.Calls op)
    (hs : x.task.step sha256 std op = some τ') (hc : τ'.state = .complete) :
    ∀ c < τ'.seed.chunks.length, τ'.scheduler.closed c := by
  have he := Task.seed_step hs
  have keep (hc : x.task.state = .complete) : ∀ c < τ'.seed.chunks.length, τ'.scheduler.closed c := by
    intro c hlt
    rw [he] at hlt
    exact h.progress.closed_step hl (h.unresumed op) hs hlt (h.complete hc c hlt)
  by_cases ht : ∃ now dead, op = .tick now dead
  case neg => exact keep ((Task.report_step hs ht).right ▸ hc)
  case pos =>
    obtain ⟨now, dead, rfl⟩ := ht
    have hp := h.progress.step_unresumed hl (h.unresumed _) hs
    obtain rfl := Option.some.inj hs
    obtain hc | hb := Task.of_complete_tick hc
    case inl => exact keep hc
    case inr => exact (hp.fileSize_le_iff h.partitioned).mp hb

theorem Tracked.step (h : x.Tracked) (hq : x.Requested op) (hs : x.step sha256 std op = some x') :
    x'.Tracked := by
  have hst := (step_cases hs).left
  have he := Task.seed_step hst
  refine ⟨he ▸ h.partitioned, h.progress.step_unresumed hq.calls (h.unresumed op) hst,
    fun c hc hb => ?_, h.complete_step hq.calls hst, fun hn => h.notSeeding ?_⟩
  · rw [he] at hc
    rw [Task.initialBitfield_step hst] at hb
    exact (h.untouched c hc hb).step h.progress.layout hq hs
  · by_cases ht : ∃ now dead, op = .tick now dead
    case neg => exact (Task.report_step hst ht).right ▸ hn
    case pos =>
      obtain ⟨now, dead, rfl⟩ := ht
      rw [← Option.some.inj hst] at hn
      exact Task.of_seeding_tick hn

-- A task that waits has seen the retries run out.
theorem waiting_step_iff (hs : x.step sha256 std op = some x') :
    x'.task.state ≠ .waiting ↔ x.task.state ≠ .waiting ∧ x.Alive op := by
  have hst := (step_cases hs).left
  cases op
  case tick now dead =>
    rw [← Option.some.inj hst, Ne, Task.waiting_tick_iff, not_or]
    simp only [Alive, not_and, not_not]
  all_goals
    rw [(Task.report_step hst (by rintro ⟨_, _, h⟩; cases h)).right]
    exact (and_iff_left trivial).symm

theorem waiting_run_iff {ops : List Task.Op}
    (hr : Machine.run (Recorded.step sha256 std) x ops = some x') :
    x'.task.state ≠ .waiting ↔
      x.task.state ≠ .waiting ∧ Machine.AllAt (Recorded.step sha256 std) Alive x ops := by
  induction ops generalizing x
  case nil =>
    obtain rfl := Option.some.inj hr
    exact (and_iff_left trivial).symm
  case cons op ops hi =>
    obtain ⟨y, hs, hr⟩ := Machine.run_cons.mp hr
    rw [hi hr, waiting_step_iff hs, Machine.allAt_cons hs, and_assoc]

-- As long as peers only send what was requested, only a task with all chunks is complete. After a
-- tick, a task with all chunks is complete exactly if the retries of the tracker client have not run
-- out at a tick without all bytes.
theorem complete_state_iff {τ₀ : Task δ} {ops : List Task.Op} (h₀ : τ₀.Downloads sha256 std)
    (hp : τ₀.seed.Partitioned)
    (hq : Machine.AllAt (Recorded.step sha256 std) Requested ⟨τ₀, []⟩ ops)
    (hr : Machine.run (Recorded.step sha256 std) ⟨τ₀, []⟩ ops = some x) :
    (x.task.state = .complete →
      ∀ c < τ₀.seed.chunks.length, x.task.scheduler.chunkStates[c]? = some .complete) ∧
    (∀ now dead, ops.getLast? = some (.tick now dead) →
      (∀ c < τ₀.seed.chunks.length, x.task.scheduler.chunkStates[c]? = some .complete) →
      (x.task.state = .complete ↔
        Machine.AllAt (Recorded.step sha256 std) Alive ⟨τ₀, []⟩ ops)) := by
  have inv {ops : List Task.Op} {x : Recorded δ}
      (hq : Machine.AllAt (Recorded.step sha256 std) Requested ⟨τ₀, []⟩ ops)
      (hr : Machine.run (Recorded.step sha256 std) ⟨τ₀, []⟩ ops = some x) :
      x.Tracked ∧ x.task.seed = τ₀.seed := by
    refine hq.invariant (fun x => x.Tracked ∧ x.task.seed = τ₀.seed) ?_
      ⟨tracked_start h₀ hp, rfl⟩ hr
    exact fun x op x' h hq hs =>
      ⟨h.left.step hq hs, (Task.seed_step (step_cases hs).left).trans h.right⟩
  have ⟨hx, he⟩ := inv hq hr
  have hc : ∀ c < τ₀.seed.chunks.length, x.task.scheduler.closed c ↔ _ :=
    fun c hc => hx.progress.layout.closed_iff (he ▸ hc)
  refine ⟨fun hs c hl => (hc c hl).mp (hx.complete hs c (he ▸ hl)), fun now dead hlast hall => ?_⟩
  constructor
  · intro hs
    refine ((waiting_run_iff hr).mp ?_).right
    rw [hs]
    exact TaskState.noConfusion
  · intro ha
    obtain ⟨before, rfl⟩ := List.getLast?_eq_some_iff.mp hlast
    obtain ⟨y, hr', ho⟩ := Machine.run_append.mp hr
    obtain ⟨x', hs, hn⟩ := Machine.run_cons.mp ho
    obtain rfl := Option.some.inj hn
    have ⟨hy, _⟩ := inv (hq.append hr').left hr'
    have hw : x'.task.state ≠ .waiting := by
      refine (waiting_run_iff hr).mpr ⟨?_, ha⟩
      change τ₀.state ≠ _
      rw [h₀.state]
      exact TaskState.noConfusion
    -- All chunks are complete, so that all bytes have been counted.
    have hb : x'.task.seed.fileSize ≤ x'.task.bytesDone :=
      (hx.progress.fileSize_le_iff hx.partitioned).mpr fun c hl =>
        (hc c (he ▸ hl)).mpr (hall c (he ▸ hl))
    have ht := Option.some.inj (step_cases hs).left
    rw [← ht] at hb ⊢
    exact Task.complete_tick hb hy.notSeeding ((waiting_step_iff hs).mp hw).left

end Steps

section LostTracker

-- A seed with one chunk, which is its own digest.
def lostSeed : TSeedFile (List UInt8) where
  fileSize := 2
  config   := {}
  chunks   := [⟨0, 2, [4, 6]⟩]
  countLt  := by decide

def lostStart : Task (List UInt8) :=
  (Task.cmdAdd id .stable lostSeed none 2 1000 [0]).get (by decide +kernel)

-- The chunk is requested at a tick and delivered. The retries may have run out at the tick.
def orderedDelivery (dead : Bool) : List Task.Op := [
  .session (.onPeerAdded 0 1000), .session (.onBitfield 0 [true] 1),
  .session (.onChokeChange 0 false), .tick 10 dead,
  .piece ⟨0, 0, 0, [4, 6], by decide⟩ 11, .io 0, .io 0, .io 0, .verify 0, .tick 20 false
]

def ordered : Recorded (List UInt8) :=
  (Machine.run (step id .stable) ⟨lostStart, []⟩ (orderedDelivery false)).get (by decide +kernel)

theorem ordered_is_complete :
    ordered.task.scheduler.chunkStates = [.complete] ∧ ordered.task.state = .complete := by
  have hp : lostStart.seed.Partitioned := ⟨by decide, by decide, by decide, by decide⟩
  have hc : ordered.task.scheduler.chunkStates = [.complete] := by decide +kernel
  have h := complete_state_iff (.cmdAdd (Option.some_get _).symm) hp
    (show Machine.AllAt (step id .stable) Requested ⟨lostStart, []⟩ (orderedDelivery false) by
      decide +kernel)
    (show Machine.run (step id .stable) ⟨lostStart, []⟩ _ = some ordered from
      (Option.some_get _).symm)
  exact ⟨hc, (h.right 20 false rfl (by rw [hc]; decide)).mpr (by decide +kernel)⟩

-- The retries run out before the chunk arrives. The task has all chunks and does not say so.
theorem lost_tracker_hides_completion :
    Machine.AllAt (step id .stable) Requested ⟨lostStart, []⟩ (orderedDelivery true) ∧
      (Machine.run (step id .stable) ⟨lostStart, []⟩ (orderedDelivery true)).map
        (fun x => (x.task.scheduler.chunkStates, x.task.bytesDone, x.task.state)) =
          some ([.complete], 2, .waiting) := by
  decide +kernel

end LostTracker

end Recorded

end ThinBT
