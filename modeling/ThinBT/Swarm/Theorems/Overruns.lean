import ThinBT.Swarm.Theorems.Safety
import ThinBT.Task.Theorems.Overruns
import ThinBT.Task.Theorems.Progress

namespace ThinBT

namespace Node

variable {δ : Type} [DecidableEq δ] {n n' : Node δ} {source : List UInt8} {seed : TSeedFile δ}
variable {sha256 : List UInt8 → δ} {std : StdSort} {Q : Nat → Nat → Prop} {e : ChunkEntry δ}
variable {x : UInt64 × Op} {c : Nat}

theorem Trusted.starved_step (h : n.Trusted (.sizes source seed) Q) (hs : seed.SeedOf sha256 source)
    (hw : n.Welcome (.sizes source seed) Q x.2) (hf : x.2.opens → n.FreshSlot)
    (he : seed.chunks[c]? = some e) (ho : e.Overruns source)
    (hc : n.task.Starved c e.lastSubBlock) (hst : n.step sha256 std x = some n') :
    n'.task.Starved c e.lastSubBlock := by
  refine (step_invariant (fun n₁ => n₁.Trusted (.sizes source seed) Q ∧
    n₁.task.Starved c e.lastSubBlock) ?_ h.wired.basic ⟨h, hc⟩ hst).right
  intro n₁ a n₂ _ _ hg ha ⟨h₁, hc⟩
  refine ⟨h₁.apply hs hw hg hf ha, ?_⟩
  obtain ⟨_, ht⟩ | ⟨op, hop, ht⟩ := task_apply ha
  case inl => exact ht ▸ hc
  case inr =>
    refine hc.step h₁.keeps (h₁.wired.legal hg hf hop) ?_ (h₁.sameSeed ▸ he) ho ht
    rintro t now rfl
    rw [h₁.sameSeed]
    exact hw.piece hg hop

end Node

namespace Swarm

variable {δ : Type} [DecidableEq δ] {sha256 : List UInt8 → δ} {std : StdSort} {w w' : Swarm δ}
variable {source : List UInt8} {seed : TSeedFile δ} {e : ChunkEntry δ} {x : UInt64 × Op} {c i : Nat}

-- A node that waits for the last sub-block of a chunk.
def Starves (e : ChunkEntry δ) (c i : Nat) (w : Swarm δ) : Prop :=
  ∀ n, w.nodes[i]? = some n → n.task.Starved c e.lastSubBlock

theorem Starves.step (h : w.Starves e c i) (hp : w.Paired) (hT : w.Trusted (.sizes source seed))
    (hs : seed.SeedOf sha256 source) (hx : w.Each Node.OpensFresh x)
    (he : seed.chunks[c]? = some e) (ho : e.Overruns source) (hst : w.step sha256 std x = some w') :
    w'.Starves e c i := by
  intro n' hn'
  obtain ⟨n, hn, rfl | ⟨op, hop, hst⟩⟩ := node_step hst hn'
  case inl => exact h n' hn
  case inr => exact (hT i n hn).starved_step hs (hT.welcome hp hop hn) (hx _ hop n hn) he ho (h n hn) hst

-- The last sub-block of a chunk that ends inside of it is rejected, whoever sends it: only the nodes
-- that have such a chunk when they start ever have it.
theorem overrun_chunk_is_not_shared {tasks : List (Task δ)} {ops : List (UInt64 × Op)}
    (hs : seed.SeedOf sha256 source) (hτ : ∀ τ ∈ tasks, τ.Shares sha256 std source seed)
    (hx : Machine.AllAt (Swarm.step sha256 std) (Each Node.OpensFresh) (start tasks) ops)
    (hr : Machine.run (Swarm.step sha256 std) (start tasks) ops = some w)
    (he : seed.chunks[c]? = some e) (ho : e.Overruns source) (hi : tasks[i]? = some τ)
    (hn : w.nodes[i]? = some n) (hc : n.task.scheduler.chunkStates[c]? = some .complete) :
    τ.scheduler.chunkStates[c]? = some .complete := by
  have hlt := (List.getElem?_eq_some_iff.mp he).choose
  have hm := List.mem_of_getElem? hi
  by_contra hne
  have hst : τ.Starved c e.lastSubBlock := by
    have hl (h : τ.Layout) (hse : τ.seed = seed) : ¬τ.scheduler.closed c :=
      fun hd => hne ((h.closed_iff (hse ▸ hlt)).mp hd)
    cases hτ τ hm
    case cmdSeed =>
      exact absurd (Task.closed_cmdSeed hlt) (hl ((hτ _ hm).wellMeasured hs).layout rfl)
    case cmdAdd ha =>
      obtain ⟨rfl, hA⟩ := Task.cmdAdd_spec ha
      exact hA.starved he ho (hl hA.layout rfl)
  have h₀ : (start tasks).Starves e c i := by
    intro n hn
    rw [start, List.getElem?_map, hi] at hn
    obtain rfl := Option.some.inj hn
    exact hst
  have inv : w.Paired ∧ w.Trusted (.sizes source seed) ∧ w.Starves e c i := by
    refine hx.invariant (fun w => w.Paired ∧ w.Trusted (.sizes source seed) ∧ w.Starves e c i) ?_
      ⟨paired_start, trusted_start hτ fun τ hm => (hτ τ hm).wellMeasured hs, h₀⟩ hr
    intro w x w' ⟨hp, hT, hS⟩ hx hst
    exact ⟨hp.step hst, hT.step hp hs hx hst, hS.step hp hT hs hx he ho hst⟩
  refine (inv.right.right n hn).opened ?_
  rw [Scheduler.closed_iff]
  exact .inr hc

section Runs

-- The first chunk ends where the second one starts.
def cutSeed : TSeedFile (List UInt8) where
  fileSize := 3
  config   := { minSize := 2, maxSize := 2 }
  chunks   := [⟨0, 2, [31, 32]⟩, ⟨2, 1, [33]⟩]
  countLt  := by decide

def cutTasks : List (Task (List UInt8)) := [
  Task.cmdSeed .stable cutSeed [31, 32, 33] 4 1000,
  (Task.cmdAdd id .stable cutSeed none 4 1000 [0, 1]).get (by decide +kernel)
]

-- Both chunks are requested, and both pieces arrive.
def cutRun : List (UInt64 × Op) := meetRun ++ [
  (7, .deliver ⟨0, 0⟩ []), (8, .deliver ⟨0, 0⟩ []), (9, .deliver ⟨1, 0⟩ []), (10, .node 1 (.tick false)),
  (11, .deliver ⟨0, 0⟩ []), (12, .deliver ⟨0, 0⟩ []), (13, .node 0 (.read 0 0)), (14, .node 0 (.post 0)),
  (15, .node 0 (.read 0 0)), (16, .node 0 (.post 0)), (17, .deliver ⟨1, 0⟩ []), (18, .deliver ⟨1, 0⟩ []),
  (19, .node 1 (.io 0)), (20, .node 1 (.io 1)), (21, .node 1 (.io 1)), (22, .node 1 (.io 1)),
  (23, .node 1 (.verify 0)), (24, .node 1 (.tick false))
]

def cutSwarm : Swarm (List UInt8) :=
  (Machine.run (step id .stable) (start cutTasks) cutRun).get (by decide +kernel)

theorem first_cut_is_not_shared :
    cutSwarm.nodes.map (·.task.scheduler.chunkStates) =
        [[.complete, .complete], [.downloading, .complete]] ∧
      (Task.cmdSeed .stable cutSeed [31, 32, 33] 4 1000).scheduler.chunkStates[0]? = some .complete ∧
      ∀ ops w n, Machine.AllAt (step id .stable) (Each Node.OpensFresh) (start cutTasks) ops →
        Machine.run (step id .stable) (start cutTasks) ops = some w → w.nodes[1]? = some n →
        n.task.scheduler.chunkStates[0]? ≠ some .complete := by
  have hs : cutSeed.SeedOf id [31, 32, 33] := ⟨rfl, by decide +kernel⟩
  have hτ : ∀ τ ∈ cutTasks, τ.Shares id .stable [31, 32, 33] cutSeed :=
    List.forall_mem_cons.mpr ⟨.cmdSeed, List.forall_mem_singleton.mpr
      (.cmdAdd (.refl [0, 1]) (Option.some_get _).symm)⟩
  have ho : ChunkEntry.Overruns [31, 32, 33] (⟨0, 2, [31, 32]⟩ : ChunkEntry (List UInt8)) := by
    decide +kernel
  have hx : Machine.AllAt (step id .stable) (Each Node.OpensFresh) (start cutTasks) cutRun := by
    decide +kernel
  obtain ⟨n, hn, hc⟩ : ∃ n, cutSwarm.nodes[0]? = some n ∧
      n.task.scheduler.chunkStates[0]? = some .complete :=
    ⟨(cutSwarm.nodes[0]?).get (by decide +kernel), (Option.some_get _).symm, by decide +kernel⟩
  refine ⟨by decide +kernel, ?_, fun ops w n hx hr hn hc => ?_⟩
  · exact overrun_chunk_is_not_shared (i := 0) (w := cutSwarm) hs hτ hx (Option.some_get _).symm rfl
      ho rfl hn hc
  · have h := overrun_chunk_is_not_shared (i := 1) hs hτ hx hr rfl ho rfl hn hc
    exact absurd h (by decide +kernel)

end Runs
end Swarm
end ThinBT
