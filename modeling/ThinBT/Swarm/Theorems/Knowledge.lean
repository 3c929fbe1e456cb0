import ThinBT.Swarm.Theorems.Fifo
import ThinBT.Node.Theorems.Disclosure

namespace ThinBT.Swarm

variable {δ : Type} [DecidableEq δ] {sha256 : List UInt8 → δ} {std : StdSort} {w : Swarm δ}
variable {tasks : List (Task δ)} {ops : List (UInt64 × Op)} {e d : End} {s t : PeerSession}
variable {A B : Node δ}

theorem disclosed_run (hτ : ∀ τ ∈ tasks, τ.Started sha256 std)
    (hx : Machine.AllAt (step sha256 std) (Each Node.Discloses) (start tasks) ops)
    (hr : Machine.run (step sha256 std) (start tasks) ops = some w) : ∀ n ∈ w.nodes, n.Disclosed := by
  refine nodes_invariant _ Node.Disclosed (fun n x n' h hx hs => h.step hx hs) hx (fun n hn => ?_) hr
  obtain ⟨τ, hm, rfl⟩ := List.mem_map.mp hn
  exact Node.disclosed_start (hτ τ hm)

-- When everything that a node has sent is delivered, its peer knows its chunks.
theorem peer_knows_chunks (hτ : ∀ τ ∈ tasks, τ.Started sha256 std)
    (hx : Machine.AllAt (step sha256 std) (Each Node.Discloses) (start tasks) ops)
    (hr : Machine.run (step sha256 std) (start tasks) ops = some w) (hm : w.mate e = some d)
    (hA : w.nodes[e.node]? = some A) (hB : w.nodes[d.node]? = some B)
    (hs : w.session e = some s) (ht : w.session d = some t) (hc : s.state = .connected)
    (hos : s.closed = false) (hot : t.closed = false) (hd : w.Delivered d) :
    ∃ bf, B.task.scheduler.shown t.slotId.toNat = some bf ∧ ∀ c < A.task.seed.chunks.length,
      (bf[c]? = some true ↔ A.task.scheduler.chunkStates[c]? = some .complete) := by
  have hD := disclosed_run hτ hx hr
  have hDA := hD A (List.mem_of_getElem? hA)
  have hp := paired_run hr
  rw [session_eq hA] at hs
  rw [session_eq hB] at ht
  obtain ⟨v, hv⟩ := (hD B (List.mem_of_getElem? hB)).recorded _ t ht hot
  rw [hp.received_eq (hp.symm hm) ((session_eq hB).trans ht) ((session_eq hA).trans hs) hd] at hv
  refine ⟨_, hv, fun c hlt => ?_⟩
  have hb : ∃ bf, .bitfield bf ∈ s.stream := by
    refine (hDA.announced s (List.mem_of_getElem? hs) hos hc).resolve_left fun hn => ?_
    rw [← hDA.initial, hn] at hlt
    exact absurd hlt (Nat.not_lt_zero c)
  have hsh := (hDA.shows s (List.mem_of_getElem? hs) hos hb).bits v c hlt
  have hne : A.task.scheduler.chunkStates[c]? ≠ none := by
    rw [← hDA.wired.indexed.totalChunks] at hlt
    exact fun hn => absurd hlt (Nat.not_lt.mpr (List.getElem?_eq_none_iff.mp hn))
  rw [Scheduler.closed_iff, or_iff_right hne, List.getD_eq_getElem?_getD] at hsh
  rw [← hsh]
  cases (remoteBits v s.stream)[c]? <;> simp

section Runs

def duoSeed : TSeedFile Unit where
  fileSize := 3
  config   := {}
  chunks   := [⟨0, 3, ()⟩]
  countLt  := by decide

def duoTasks : List (Task Unit) := [
  Task.cmdSeed .stable duoSeed [7, 8, 9] 4 1000,
  (Task.cmdAdd (fun _ => ()) .stable duoSeed none 4 1000 [0]).get (by decide +kernel)
]

-- The second node downloads the chunk from the first one.
def downloadRun : List (UInt64 × Op) := [
  (1, .connect 1 0), (2, .accept 0), (3, .node 1 (.established 0)), (4, .deliver ⟨0, 0⟩ []),
  (5, .deliver ⟨1, 0⟩ []), (6, .deliver ⟨1, 0⟩ []), (7, .deliver ⟨0, 0⟩ []), (8, .deliver ⟨0, 0⟩ []),
  (9, .deliver ⟨1, 0⟩ []), (10, .node 1 (.tick false)), (11, .deliver ⟨0, 0⟩ []),
  (12, .node 0 (.read 0 0)), (13, .node 0 (.post 0)), (14, .deliver ⟨1, 0⟩ []),
  (15, .node 1 (.io 0)), (16, .node 1 (.io 0)), (17, .node 1 (.io 0)), (18, .node 1 (.verify 0)),
  (19, .node 1 (.tick false)), (20, .deliver ⟨0, 0⟩ []), (21, .deliver ⟨0, 0⟩ [])
]

def downloadSwarm : Swarm Unit :=
  (Machine.run (step (fun _ => ()) .stable) (start duoTasks) downloadRun).get (by decide +kernel)

theorem downloadSwarm_knows_chunks :
    (downloadSwarm.nodes.map (·.task.scheduler.chunkStates)) = [[.complete], [.complete]] ∧
      ∃ A B t bf, downloadSwarm.nodes[1]? = some A ∧ downloadSwarm.nodes[0]? = some B ∧
        downloadSwarm.session ⟨0, 0⟩ = some t ∧ B.task.scheduler.shown t.slotId.toNat = some bf ∧
        ∀ c < A.task.seed.chunks.length,
          (bf[c]? = some true ↔ A.task.scheduler.chunkStates[c]? = some .complete) := by
  have hτ : ∀ τ ∈ duoTasks, τ.Started (fun _ => ()) .stable :=
    List.forall_mem_cons.mpr ⟨.cmdSeed, List.forall_mem_singleton.mpr
      (.cmdAdd (List.Perm.refl [0]) (Option.some_get _).symm)⟩
  have hr : Machine.run (step (fun _ => ()) .stable) (start duoTasks) downloadRun =
      some downloadSwarm :=
    (Option.some_get _).symm
  obtain ⟨bf, hb, h⟩ := peer_knows_chunks hτ (by decide +kernel) hr
    (show downloadSwarm.mate ⟨1, 0⟩ = some ⟨0, 0⟩ by decide +kernel)
    (Option.some_get (by decide +kernel)).symm (Option.some_get (by decide +kernel)).symm
    (Option.some_get (by decide +kernel)).symm (Option.some_get (by decide +kernel)).symm
    (by decide +kernel) (by decide +kernel) (by decide +kernel) (by decide +kernel)
  exact ⟨by decide +kernel, _, _, _, bf, (Option.some_get _).symm, (Option.some_get _).symm,
    (Option.some_get _).symm, hb, h⟩

-- The connection is lost, and the second node connects to the first one again.
def againRun : List (UInt64 × Op) := downloadRun ++ [
  (22, .node 0 (.readError 0)), (23, .node 1 (.readError 0)), (24, .connect 1 0), (25, .accept 0),
  (26, .node 1 (.established 1)), (27, .deliver ⟨0, 1⟩ []), (28, .deliver ⟨1, 1⟩ []),
  (29, .deliver ⟨1, 1⟩ []), (30, .deliver ⟨0, 1⟩ [])
]

-- The first node believes that the second one does not have the chunk.
theorem bitfield_is_outdated :
    ∃ w, Machine.run (step (fun _ => ()) .stable) (start duoTasks) againRun = some w ∧
      w.mate ⟨1, 1⟩ = some ⟨0, 1⟩ ∧ w.Delivered ⟨0, 1⟩ ∧ w.Delivered ⟨1, 1⟩ ∧
      (w.session ⟨1, 1⟩).map (fun s => (s.state, s.closed)) = some (.connected, false) ∧
      (w.session ⟨0, 1⟩).map (fun t => (t.state, t.closed, t.slotId)) = some (.connected, false, 1) ∧
      (w.nodes[1]?).map (·.task.scheduler.chunkStates) = some [.complete] ∧
      (w.nodes[0]?).bind (fun n => (n.task.scheduler.shown 1).map (·[0]?)) = some (some false) :=
  ⟨(Machine.run (step (fun _ => ()) .stable) (start duoTasks) againRun).get (by decide +kernel),
    (Option.some_get _).symm, by decide +kernel⟩

end Runs
end ThinBT.Swarm
