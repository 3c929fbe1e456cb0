import ThinBT.Swarm.Theorems.Distribution
import ThinBT.Task.Theorems.Downloads
import ThinBT.Task.Theorems.Resume

namespace ThinBT

theorem SegmentWriter.openWriter_pos {size segment : UInt64} (h : openWriter size segment = some w) :
    0 < size.toNat := by
  rw [openWriter] at h
  split at h
  case isTrue      => cases h
  case isFalse hne => exact Nat.pos_of_ne_zero fun h0 => hne (UInt64.toNat_inj.mp h0)

theorem SegmentWriter.preallocate_of_length {file : List UInt8} {size : UInt64}
    (h : file.length = size.toNat) : preallocate (some file) size = file :=
  if_pos h

theorem Scheduler.complete_iff_closed {σ : Scheduler} (hc : c < σ.totalChunks) :
    σ.chunkStates[c]? = some .complete ↔ σ.closed c := by
  have hlt : c < σ.chunkStates.length := hc
  rw [closed, List.getD_eq_getElem?_getD, List.getElem?_eq_getElem hlt]
  simp

namespace Task

variable {δ : Type} [DecidableEq δ] {sha256 : List UInt8 → δ} {std : StdSort} {source file : List UInt8}
variable {seed : TSeedFile δ} {τ : Task δ} {c : Nat}

-- Whether a download starts does not depend on the file that exists.
theorem exists_cmdAdd (h : (cmdAdd sha256 std seed existing hw speed order).isSome) :
    0 < seed.fileSize.toNat ∧ ∀ existing' hw' speed' order',
      ∃ τ, cmdAdd sha256 std seed existing' hw' speed' order' = some τ := by
  obtain ⟨τ, h⟩ := Option.isSome_iff_exists.mp h
  simp only [cmdAdd, Option.bind_eq_bind, Option.bind_eq_some_iff] at h
  obtain ⟨w, hw, as, ha, _⟩ := h
  refine ⟨SegmentWriter.openWriter_pos hw, fun existing' hw' speed' order' => ?_⟩
  simp only [cmdAdd, hw, ha, Option.bind_eq_bind, Option.bind_some]
  exact ⟨_, rfl⟩

-- A download that is started with a file of the size of the source has the chunks of the source that
-- are in the file.
theorem complete_iff_of_cmdAdd (hs : seed.SeedOf sha256 source) (hc : seed.CollisionFree sha256 source)
    (ha : 2048 ≤ seed.config.avgSize.toNat) (hl : file.length = source.length)
    (hp : 0 < seed.fileSize.toNat)
    (hτ : cmdAdd sha256 std seed (some file) hw speed order = some τ) (he : seed.chunks[c]? = some e) :
    τ.scheduler.chunkStates[c]? = some .complete ↔ e.bytes file = e.bytes source := by
  obtain ⟨rfl, hA⟩ := cmdAdd_spec hτ
  have hlt : c < τ.seed.chunks.length := (List.getElem?_eq_some_iff.mp he).choose
  have hsize : file.length = τ.seed.fileSize.toNat := hl.trans hs.fileSize.symm
  have hmem := List.mem_of_getElem? he
  have hex : fileExists (some file) := by simp [fileExists, hsize, hp]
  have hbit := resume_exact_of_seedOf hex hs ha he
  rw [SegmentWriter.preallocate_of_length hsize, (hs.tiles.describes hmem).hash] at hbit
  rw [Scheduler.complete_iff_closed (hA.begins.totalChunks ▸ hlt),
    (Downloads.credited (.cmdAdd hτ) hs.partitioned).closed c hlt, hA.bitfield,
    List.getD_eq_getElem?_getD]
  have hlen : c < (initBf sha256 τ.seed (some file)).length := by
    rw [initBf, List.length_map]
    exact hlt
  have hfits : e.offset.toNat + e.length.toNat ≤ file.length :=
    hl ▸ (hs.tiles.describes hmem).fits
  rw [List.getElem?_eq_getElem hlen] at hbit ⊢
  rw [Option.getD_some, ← Option.some.injEq, hbit]
  refine ⟨hc e hmem _ (List.length_slice hfits), congrArg sha256⟩

end Task

namespace Swarm

variable {δ : Type} [DecidableEq δ] {sha256 : List UInt8 → δ} {std : StdSort} {source : List UInt8}
variable {seed : TSeedFile δ} {w : Swarm δ}

theorem sharing_run {tasks : List (Task δ)} {ops : List (UInt64 × Op)}
    (hs : seed.SeedOf sha256 source) (hc : seed.CollisionFree sha256 source)
    (hτ : ∀ τ ∈ tasks, τ.Shares sha256 std source seed) (hl : seed.chunks.length + 7 < 2 ^ 32)
    (hops : ops.length < 2 ^ 32) (hr : Machine.run (step sha256 std) (start tasks) ops = some w) :
    w.Sharing source seed ops.length := by
  obtain ⟨w', hw', h⟩ := Machine.exists_run_of_counted (Q := fun _ => True) (m := 0)
    (Sharing source seed)
    (fun m w x hm h _ => by
      obtain ⟨w', hw⟩ : ∃ w', w.step sha256 std x = some w' := h.step_defined hs hl
      exact ⟨w', hw, h.step hs (Nat.succ_lt_of_lt_pred hm) hw⟩)
    (Sharing.start hs hc hτ) (fun _ _ => trivial)
    (show 0 + ops.length ≤ UInt32.size - 1 by rw [Nat.zero_add]; exact Nat.le_sub_one_of_lt hops)
  obtain rfl := Option.some.inj (hr.symm.trans hw')
  rwa [Nat.zero_add] at h

-- A node that is killed at any time and started again with the file that it leaves has lost nothing:
-- it has exactly the chunks whose bytes are in the file, and those include all that were complete.
theorem restart_keeps_progress {tasks : List (Task δ)} {ops : List (UInt64 × Op)} {n : Node δ}
    (hs : seed.SeedOf sha256 source) (hc : seed.CollisionFree sha256 source)
    (ha : 2048 ≤ seed.config.avgSize.toNat) (hl : seed.chunks.length + 7 < 2 ^ 32)
    (hτ : ∀ τ ∈ tasks, τ.Shares sha256 std source seed) (hops : ops.length < 2 ^ 32)
    (hr : Machine.run (step sha256 std) (start tasks) ops = some w) (hn : n ∈ w.nodes)
    (hadd : (Task.cmdAdd sha256 std seed existing hw₀ speed₀ order₀).isSome)
    (ho : order.Perm (.range seed.chunks.length)) :
    ∃ τ, Task.cmdAdd sha256 std seed (some n.task.file) hw speed order = some τ ∧
      τ.Shares sha256 std source seed ∧ τ.file = n.task.file ∧
      ∀ (c : Nat) e, seed.chunks[c]? = some e →
        (τ.scheduler.chunkStates[c]? = some .complete ↔ e.bytes n.task.file = e.bytes source) ∧
        (n.task.scheduler.chunkStates[c]? = some .complete →
          τ.scheduler.chunkStates[c]? = some .complete) := by
  have h : w.Sharing source seed ops.length := sharing_run hs hc hτ hl hops hr
  obtain ⟨hp, hex⟩ := Task.exists_cmdAdd hadd
  obtain ⟨τ, hτ'⟩ := hex (some n.task.file) hw speed order
  obtain ⟨i, hi⟩ := List.getElem?_of_mem hn
  have hT := h.trusted i n hi
  have hlen : n.task.file.length = source.length := hT.keeps.length
  refine ⟨τ, hτ', .cmdAdd ho hτ', ?_, fun c e he => ?_⟩
  · rw [(Task.cmdAdd_spec hτ').right.file, (Task.cmdAdd_spec hτ').left]
    exact SegmentWriter.preallocate_of_length (hlen.trans hs.fileSize.symm)
  · have hiff := Task.complete_iff_of_cmdAdd hs hc ha hlen hp hτ' he
    exact ⟨hiff, fun hcomp => hiff.mpr (h.trusted.safe.complete n hn c hcomp e (hT.sameSeed ▸ he))⟩

-- The chunk has arrived at the second node, which starts again.
theorem shared_file_is_resumed :
    ∃ n τ, sharedSwarm.nodes[1]? = some n ∧
      Task.cmdAdd id .stable trioSeed (some n.task.file) 2 100 [0] = some τ ∧
      τ.scheduler.chunkStates[0]? = some .complete := by
  obtain ⟨n, hn⟩ := Option.isSome_iff_exists.mp (show (sharedSwarm.nodes[1]?).isSome by decide +kernel)
  obtain ⟨τ, hτ, _, _, hc⟩ := restart_keeps_progress seedOf_trioSeed collisionFree_trioSeed (by decide)
    (by decide) shares_trioTasks (show shareRun.length < 2 ^ 32 by decide +kernel)
    (show _ = some sharedSwarm from (Option.some_get _).symm) (List.mem_of_getElem? hn)
    (show (Task.cmdAdd id .stable trioSeed none 4 1000 [0]).isSome by decide +kernel)
    (.refl [0])
  have he : (sharedSwarm.nodes[1]?).bind (·.task.scheduler.chunkStates[0]?) = some .complete := by
    decide +kernel
  rw [hn, Option.bind_some] at he
  exact ⟨n, τ, hn, hτ, (hc 0 ⟨0, 3, [7, 8, 9]⟩ rfl).right he⟩

end Swarm
end ThinBT
