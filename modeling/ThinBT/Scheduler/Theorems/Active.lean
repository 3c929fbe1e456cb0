import ThinBT.Scheduler.Theorems.Outcome

namespace ThinBT.Scheduler

variable {σ : Scheduler} {std : StdSort}

-- The public methods of the scheduler, of which `set_chunk_sizes` may be called at any time.
inductive Method
  | setChunkSizes (sizes : List UInt32)
  | op (o : Op)

def invoke (std : StdSort) (σ : Scheduler) : Method → Scheduler
  | .setChunkSizes sizes => σ.setChunkSizes sizes
  | .op o                => next std σ o

def Method.InRange (σ : Scheduler) : Method → Prop
  | .setChunkSizes _ => True
  | .op o            => σ.InRange o

-- The cached indices are those of the open chunks.
structure CachesOpen (σ : Scheduler) : Prop where
  nodup : σ.activeChunks.Nodup
  mem   : c ∈ σ.activeChunks ↔ ¬σ.closed c

namespace CachesOpen

theorem mem_apply (h : σ.CachesOpen) (hg : σ.GuardOrAdd a) :
    c ∈ (σ.apply a).activeChunks ↔ ¬(σ.apply a).closed c := by
  rw [activeChunks_apply, closed_apply]
  cases a
  case shuffle => exact (hg.guard (by simp)).mem_iff.trans h.mem
  case complete d _ | markComplete d =>
    rw [h.nodup.mem_swapRemove, h.mem, Bool.or_eq_true, decide_eq_true_eq, not_or, eq_comm (a := d)]
  case beginDownload d =>
    have hd : ¬σ.closed d := hg.guard (by simp)
    dsimp only
    split
    case isTrue he => exact iff_of_true (h.mem.mpr (he.left ▸ hd)) Bool.false_ne_true
    case isFalse   => exact h.mem
  case verifyFailed d =>
    have hd : d < σ.totalChunks := hg.guard (by simp)
    have hm : c ∈ (if d ∈ σ.activeChunks then σ.activeChunks else σ.activeChunks ++ [d]) ↔
        c ∈ σ.activeChunks ∨ c = d := by
      split
      case isTrue hm => exact (or_iff_left_of_imp fun hc => hc ▸ hm).symm
      case isFalse   => rw [List.mem_append, List.mem_singleton]
    refine hm.trans ?_
    by_cases he : d = c
    case pos => simp [he, he ▸ hd]
    case neg => simp [he, Ne.symm he, h.mem]
  all_goals exact h.mem

theorem apply (h : σ.CachesOpen) (hg : σ.GuardOrAdd a) : (σ.apply a).CachesOpen :=
  ⟨nodup_activeChunks_apply h.nodup hg, h.mem_apply hg⟩

theorem next (h : σ.CachesOpen) (hr : σ.InRange op) : (Scheduler.next std σ op).CachesOpen :=
  hr.allGuardOrAdd.invariant (fun _ _ => apply) h

theorem setChunkSizes (h : σ.CachesOpen) : (σ.setChunkSizes sizes).CachesOpen :=
  ⟨h.nodup, h.mem⟩

theorem invoke (h : σ.CachesOpen) (hr : m.InRange σ) : (σ.invoke std m).CachesOpen := by
  cases m
  case setChunkSizes => exact h.setChunkSizes
  case op            => exact h.next hr

end CachesOpen

theorem cachesOpen_init : (init total speed).CachesOpen where
  nodup := List.nodup_range
  mem   := by
    intro c
    simp only [init, closed, List.getD_eq_getElem?_getD, List.getElem?_replicate, List.mem_range]
    split <;> simp [*]

theorem cachesOpen_start : (start total speed sizes).CachesOpen :=
  cachesOpen_init.setChunkSizes

theorem totalChunks_invoke : (σ.invoke std m).totalChunks = σ.totalChunks := by
  cases m
  case setChunkSizes => rfl
  case op            => exact totalChunks_exec

-- The cache lists the chunks that are not complete, each of them once.
theorem active_chunks_exact {methods : List Method}
    (hr : Actions.AllAt (invoke std) (fun σ m => m.InRange σ) (init total speed) methods)
    (hσ : σ = Actions.exec (invoke std) (init total speed) methods) :
    σ.activeChunks.Nodup ∧
      ∀ i, i ∈ σ.activeChunks ↔ i < total.toNat ∧ σ.chunkStates[i]? ≠ some .complete := by
  have step (σ : Scheduler) (m) (h : σ.CachesOpen ∧ σ.totalChunks = total.toNat)
      (hm : m.InRange σ) : (σ.invoke std m).CachesOpen ∧ (σ.invoke std m).totalChunks = total.toNat :=
    ⟨h.left.invoke hm, totalChunks_invoke.trans h.right⟩
  obtain ⟨h, ht⟩ := hσ ▸ hr.invariant step ⟨cachesOpen_init, List.length_replicate⟩
  refine ⟨h.nodup, fun i => h.mem.trans ?_⟩
  rw [closed_iff, not_or, ← ht]
  exact and_congr_left fun _ => by simp [totalChunks]

-- The pieces are shuffled, and a chunk is completed twice and fails its verification twice.
def reshuffledRun : List Method := [
  .setChunkSizes [16384, 100, 50], .op (.randomizePieceOrder [2, 0, 1]), .op (.onPeerAdded 1 0),
  .op (.onPeerAdded 1 0), .op (.processCompletions [⟨0, 1⟩, ⟨0, 1⟩]), .op (.onVerifyFailed 0),
  .op (.onVerifyFailed 0), .op (.processCompletions [⟨2, 1⟩])
]

theorem inRange_reshuffledRun :
    Actions.AllAt (invoke .stable) (fun σ m => m.InRange σ) (init 3 1000) reshuffledRun :=
  ⟨trivial, .inl (by decide +kernel), .inr ⟨1, 0, rfl⟩, .inr ⟨1, 0, rfl⟩, .inl (by decide +kernel),
    .inl (by decide +kernel), .inl (by decide +kernel), .inl (by decide +kernel), trivial⟩

theorem reshuffledRun_active_chunks :
    (Actions.exec (invoke .stable) (init 3 1000) reshuffledRun).activeChunks.Nodup ∧
      ∀ i, i ∈ (Actions.exec (invoke .stable) (init 3 1000) reshuffledRun).activeChunks ↔
        i < (3 : UInt32).toNat ∧
          (Actions.exec (invoke .stable) (init 3 1000) reshuffledRun).chunkStates[i]? ≠
            some .complete :=
  active_chunks_exact inRange_reshuffledRun rfl

end ThinBT.Scheduler
