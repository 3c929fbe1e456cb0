import ThinBT.Swarm.Theorems.Fifo
import ThinBT.Node.Theorems.Acceptance

namespace ThinBT

theorem Task.length_cmdSeed {seed : TSeedFile δ} :
    (cmdSeed std seed bytes hw speed).initialBitfield.length = seed.chunks.length :=
  List.length_map ..

namespace Swarm

variable {δ : Type} {w w' : Swarm δ} {seed : TSeedFile δ} {op : Op}

def Op.ShortPex : Op → Prop
  | .deliver _ peers => peers.length ≤ maxPeers
  | .node _ op       => op.ShortPex
  | _                => True

theorem Op.ShortPex.event (h : op.ShortPex) (he : w.event op = some (i, nop)) : nop.ShortPex := by
  cases op
  case connect i j =>
    simp only [Swarm.event] at he
    split at he
    case isTrue  => cases he
    case isFalse => cases he; trivial
  case accept b =>
    obtain ⟨_, _, he⟩ := Option.map_eq_some_iff.mp he
    cases he
    trivial
  case deliver e peers =>
    obtain ⟨_, _, he⟩ := Option.map_eq_some_iff.mp he
    cases he
    exact h
  case node i op =>
    simp only [Swarm.event] at he
    split at he
    case isTrue  => cases he; exact h
    case isFalse => cases he

-- The requests that are delivered are those of compact nodes.
theorem asksSubBlock_event (h : ∀ n ∈ w.nodes, n.Compact total) (he : w.event op = some (i, nop)) :
    nop.AsksSubBlock := by
  intro k index begin length peers ho
  subst ho
  obtain ⟨d, s, t, _, _, ht, hm⟩ := nextMessage_eq_some.mp (event_receive he)
  obtain ⟨n, hn, hk⟩ := session_eq_some.mp ht
  have hs := (h n (List.mem_of_getElem? hn)).sessions t (List.mem_of_getElem? hk)
  exact hs.stream _ (List.mem_of_getElem? hm)

section Step

variable [DecidableEq δ] {sha256 : List UInt8 → δ} {std : StdSort} {x : UInt64 × Op}

theorem compact_step (h : ∀ n ∈ w.nodes, n.Basic ∧ n.Compact total) (hx : x.2.ShortPex)
    (hs : w.step sha256 std x = some w') : ∀ n ∈ w'.nodes, n.Basic ∧ n.Compact total := by
  refine nodes_step (fun n => n.Basic ∧ n.Compact total) h (fun i op n n' he _ hn hs => ?_) hs
  have hq := asksSubBlock_event (fun n hn => (h n hn).right) he
  exact ⟨hn.left.step hs, hn.right.step hn.left (hx.event he) hq hs⟩

theorem compact_run {tasks : List (Task δ)} {ops : List (UInt64 × Op)}
    (hτ : ∀ τ ∈ tasks, τ.initialBitfield.length = total) (hp : ∀ x ∈ ops, x.2.ShortPex)
    (hr : Machine.run (step sha256 std) (start tasks) ops = some w) :
    ∀ n ∈ w.nodes, n.Basic ∧ n.Compact total := by
  have hx : Machine.AllAt (step sha256 std) (fun _ x => x.2.ShortPex) (start tasks) ops :=
    Machine.allAt_of_invariant (fun _ => True) (fun _ _ _ _ _ => trivial) trivial
      fun x hx _ _ => hp x hx
  refine hx.invariant (fun w => ∀ n ∈ w.nodes, n.Basic ∧ n.Compact total)
    (fun _ _ _ h hx hs => compact_step h hx hs) (fun n hn => ?_) hr
  obtain ⟨τ, hm, rfl⟩ := List.mem_map.mp hn
  exact ⟨Node.basic_start, hτ τ hm, List.forall_mem_nil _⟩

theorem messages_accepted_iff (sha256 : List UInt8 → δ) (std : StdSort) (seed : TSeedFile δ) :
    (∀ (tasks : List (Task δ)) (ops : List (UInt64 × Op)) (w : Swarm δ),
      (∀ τ ∈ tasks, τ.seed = seed ∧ τ.initialBitfield.length = seed.chunks.length) →
      (∀ x ∈ ops, x.2.ShortPex) → Machine.run (step sha256 std) (start tasks) ops = some w →
      ∀ n ∈ w.nodes, n.Accepted) ↔ seed.chunks.length ≤ 8 * maxMsgSize := by
  constructor
  · intro h
    have hn : Node.Accepted { task := Task.cmdSeed std seed [] 0 0 } := by
      refine h [Task.cmdSeed std seed [] 0 0] [] _ (fun τ hm => ?_) nofun rfl _ List.mem_cons_self
      rw [List.mem_singleton.mp hm]
      exact ⟨rfl, Task.length_cmdSeed⟩
    rw [← Task.length_cmdSeed]
    refine hn.length_le (fun b hb => ?_) (Task.length_cmdSeed ▸ seed.countLt)
    obtain ⟨_, _, he⟩ := List.mem_map.mp hb
    exact he.symm
  · intro ht tasks ops w hτ hp hr n hn
    exact (compact_run (fun τ hm => (hτ τ hm).right) hp hr n hn).right.accepted ht

end Step

-- One chunk more than the largest message has bits for.
def wideSeed : TSeedFile Unit where
  fileSize := 524289
  config   := {}
  chunks   := (List.range 524289).map fun i => ⟨.ofNat i, 1, ()⟩
  countLt  := by rw [List.length_map, List.length_range]; decide

theorem wide_bitfield_is_refused :
    ∃ bytes, buildBitfield (Task.cmdSeed .stable wideSeed [] 4 1000).initialBitfield = some bytes ∧
      bytes.length = 5 + 65537 ∧ readMessage bytes = none := by
  have hl : (Task.cmdSeed .stable wideSeed [] 4 1000).initialBitfield.length = 524289 := by
    rw [Task.length_cmdSeed, wideSeed, List.length_map, List.length_range]
  generalize (Task.cmdSeed .stable wideSeed [] 4 1000).initialBitfield = bits at hl
  obtain ⟨bf, hbf⟩ := Option.isSome_iff_exists.mp (Bitfield.build_defined (by rw [hl]; decide))
  have hf : (bf.map UInt8.ofBitVec).length = 65537 := by
    rw [List.length_map, Bitfield.length_build hbf (by rw [hl]; decide), hl]
  obtain ⟨bytes, hb⟩ : ∃ bytes, buildMessage .bitfield (bf.map UInt8.ofBitVec) = some bytes :=
    Option.isSome_iff_exists.mp (isSome_buildMessage (by rw [hf]; decide))
  refine ⟨bytes, by rw [buildBitfield, hbf]; exact hb, ?_⟩
  rw [eq_frame_of_buildMessage hb]
  refine ⟨by rw [length_frame, hf], ?_⟩
  rw [← List.append_nil (frame ..), readMessage_frame_eq (by rw [hf]; decide), hf]
  rfl

end Swarm
end ThinBT
