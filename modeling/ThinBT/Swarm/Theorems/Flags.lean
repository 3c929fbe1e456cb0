import ThinBT.Swarm.Theorems.Fifo
import ThinBT.Node.Theorems.Flags

namespace ThinBT.Swarm

open PeerSession

variable {δ : Type} [DecidableEq δ] {sha256 : List UInt8 → δ} {std : StdSort} {w : Swarm δ}
variable {tasks : List (Task δ)} {ops : List (UInt64 × Op)} {e d : End} {s t : PeerSession}

theorem flags_run (hr : Machine.run (step sha256 std) (start tasks) ops = some w)
    (hs : w.session e = some s) : s.Flags := by
  have h : w.Paired ∧ ∀ n ∈ w.nodes, n.Flagged := by
    refine Machine.run_invariant (fun w => w.Paired ∧ ∀ n ∈ w.nodes, n.Flagged) ?_
      ⟨paired_start, ?_⟩ hr
    case refine_1 =>
      intro w x w' ⟨hp, hf⟩ hs
      refine ⟨hp.step hs, nodes_step Node.Flagged hf (fun i op n n' _ hn h hs => ?_) hs⟩
      exact h.step (hp.basic n (List.mem_of_getElem? hn)) hs
    case refine_2 =>
      intro n hn
      obtain ⟨τ, _, rfl⟩ := List.mem_map.mp hn
      exact List.forall_mem_nil _
  obtain ⟨n, hn, hk⟩ := session_eq_some.mp hs
  exact h.right n (List.mem_of_getElem? hn) s (List.mem_of_getElem? hk)

theorem interest_run
    (hq : Machine.AllAt (step sha256 std) (Each (Node.Quiet std)) (start tasks) ops)
    (hr : Machine.run (step sha256 std) (start tasks) ops = some w)
    (hs : w.session e = some s) : s.Interest := by
  have h := nodes_invariant _ (fun n => n.Basic ∧ n.Interested)
    (fun n x n' h hx hs => ⟨h.left.step hs, h.right.step h.left hx hs⟩) hq ?_ hr
  case refine_1 =>
    intro n hn
    obtain ⟨τ, _, rfl⟩ := List.mem_map.mp hn
    exact ⟨Node.basic_start, List.forall_mem_nil _⟩
  obtain ⟨n, hn, hk⟩ := session_eq_some.mp hs
  exact ((h n (List.mem_of_getElem? hn)).right s (List.mem_of_getElem? hk)).left

-- When everything that was sent is delivered, the peer knows the flags of a session.
theorem flags_agree (hr : Machine.run (step sha256 std) (start tasks) ops = some w)
    (hm : w.mate e = some d) (hs : w.session e = some s) (ht : w.session d = some t)
    (ho : s.closed = false) (hd : w.Delivered d) :
    s.chokingPeer = t.peerChokingMe ∧
      (Machine.AllAt (step sha256 std) (Each (Node.Quiet std)) (start tasks) ops →
        s.amInterested = t.peerInterested) := by
  have hp := paired_run hr
  have he := hp.received_eq (hp.symm hm) ht hs hd
  have hft := flags_run hr ht
  refine ⟨?_, fun hq => ?_⟩
  · rw [hft.choked, he, (flags_run hr hs).choking ho]
  · rw [hft.interested, he, interest_run hq hr hs ho]

section Runs

def pairSeed : TSeedFile Unit where
  fileSize := 4
  config   := {}
  chunks   := [⟨0, 4, ()⟩]
  countLt  := by decide

def pairTasks : List (Task Unit) := [
  Task.cmdSeed .stable pairSeed [1, 2, 3, 4] 4 1000,
  (Task.cmdAdd (fun _ => ()) .stable pairSeed none 4 1000 [0]).get (by decide +kernel)
]

-- The second node connects to the first one, is interested and is unchoked.
def interestRun : List (UInt64 × Op) := [
  (1, .connect 1 0), (2, .accept 0), (3, .node 1 (.established 0)), (4, .deliver ⟨0, 0⟩ []),
  (5, .deliver ⟨1, 0⟩ []), (6, .deliver ⟨1, 0⟩ []), (7, .deliver ⟨0, 0⟩ []), (8, .deliver ⟨0, 0⟩ []),
  (9, .deliver ⟨1, 0⟩ [])
]

def interestSwarm : Swarm Unit :=
  (Machine.run (step (fun _ => ()) .stable) (start pairTasks) interestRun).get (by decide +kernel)

theorem interestSwarm_flags_agree :
    ∃ s t, interestSwarm.session ⟨1, 0⟩ = some s ∧ interestSwarm.session ⟨0, 0⟩ = some t ∧
      s.amInterested = true ∧ s.chokingPeer = t.peerChokingMe ∧
      s.amInterested = t.peerInterested := by
  have hr : Machine.run (step (fun _ => ()) .stable) (start pairTasks) interestRun =
      some interestSwarm :=
    (Option.some_get _).symm
  have h := flags_agree hr (show interestSwarm.mate ⟨1, 0⟩ = some ⟨0, 0⟩ by decide +kernel)
    (Option.some_get (by decide +kernel)).symm (Option.some_get (by decide +kernel)).symm
    (by decide +kernel) (by decide +kernel)
  exact ⟨_, _, (Option.some_get _).symm, (Option.some_get _).symm, by decide +kernel, h.left,
    h.right (by decide +kernel)⟩

-- The chunk is requested, received and verified, and the end of the download is announced.
def finishedRun : List (UInt64 × Op) := interestRun ++ [
  (10, .node 1 (.tick false)), (11, .deliver ⟨0, 0⟩ []), (12, .node 0 (.read 0 0)),
  (13, .node 0 (.post 0)), (14, .deliver ⟨1, 0⟩ []), (15, .node 1 (.io 0)), (16, .node 1 (.io 0)),
  (17, .node 1 (.io 0)), (18, .node 1 (.verify 0)), (19, .node 1 (.tick false)),
  (20, .deliver ⟨0, 0⟩ []), (21, .deliver ⟨0, 0⟩ [])
]

-- The session of the second node remains interested, although its peer was told that it is not.
theorem finished_flags_disagree :
    ∃ w, Machine.run (step (fun _ => ()) .stable) (start pairTasks) finishedRun = some w ∧
      w.mate ⟨1, 0⟩ = some ⟨0, 0⟩ ∧ w.Delivered ⟨0, 0⟩ ∧ w.Delivered ⟨1, 0⟩ ∧
      (w.session ⟨1, 0⟩).map (fun s => (s.state, s.amInterested)) = some (.connected, true) ∧
      (w.session ⟨0, 0⟩).map (fun t => (t.state, t.peerInterested)) = some (.connected, false) :=
  ⟨(Machine.run (step (fun _ => ()) .stable) (start pairTasks) finishedRun).get (by decide +kernel),
    (Option.some_get _).symm, by decide +kernel⟩

end Runs
end ThinBT.Swarm
