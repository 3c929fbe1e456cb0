import ThinBT.Task.Theorems.Steps
import ThinBT.Task.Verification
import ThinBT.Util.Machine

-- What `ioStep` and `verifyStep` do in one step is what a worker does that no other thread interrupts.
namespace ThinBT

theorem Task.nextCopy_eq_some {τ : Task δ} (h : τ.nextCopy w = some (t, pos)) :
    ∃ q a base, τ.workers[w]? = some ⟨t :: q, .idle⟩ ∧ τ.assemblers[t.chunkIdx.toNat]? = some a ∧
      a.accepts t.begin t.length ∧ a.base = some base ∧ pos = base + t.begin.toNat := by
  unfold nextCopy at h
  split at h
  case h_2 => cases h
  case h_1 u q hw =>
    simp only [Option.bind_eq_bind, Option.bind_eq_some_iff] at h
    obtain ⟨a, ha, base, hb, h⟩ := h
    split at h
    case isFalse   => cases h
    case isTrue hc => cases h; exact ⟨q, a, base, hw, ha, hc, hb, rfl⟩

-- Where the piece is written does not depend on the file.
theorem Task.ioStep_of_nextCopy {τ τ' : Task δ} (hn : τ.nextCopy w = some (t, pos))
    (hs : τ.ioStep w = some τ') :
    ∃ k, ∀ file, Task.ioStep { τ with file } w =
      some ({ τ with file := file.overwrite pos t.data }.setWorker w k) := by
  obtain ⟨q, a, base, hw, ha, hc, hb, rfl⟩ := nextCopy_eq_some hn
  simp only [ioStep, hw, ha, hc, ChunkAssembler.write, hb, Option.bind_eq_bind, Option.bind_some,
    if_true] at hs ⊢
  split at hs
  case isFalse   => cases hs
  case isTrue hl => exact ⟨⟨q, .written t⟩, fun file => by rw [if_pos hl]; rfl⟩

namespace Verifying

variable {δ : Type} {x : Verifying δ}

-- The first `i` bytes of the piece have been copied.
def copied (x : Verifying δ) (w : Nat) (t : PieceTask) (pos i : Nat) : Verifying δ :=
  { x with
    task   := { x.task with file := x.task.file.overwrite pos (t.data.take i) }
    copies := x.copies.set w (some ((List.range t.data.length).drop i)) }

theorem copy_copied (hn : x.task.nextCopy w = some (t, pos)) (hw : w < x.copies.length)
    (hi : i < t.data.length) : (x.copied w t pos i).copy w 0 = x.copied w t pos (i + 1) := by
  have hr : (List.range t.data.length).drop i = i :: (List.range t.data.length).drop (i + 1) := by
    rw [List.drop_eq_getElem_cons (by simpa using hi), List.getElem_range]
  have hy : (x.copied w t pos i).nextByte w 0 = some (pos + i, t.data[i]) := by
    have hn' : (x.copied w t pos i).task.nextCopy w = some (t, pos) := hn
    rw [nextByte, hn', copied, List.getElem?_set_self hw, hr]
    simp [hi]
  have hl : (t.data.take i).length = i := List.length_take_of_le (Nat.le_of_lt hi)
  rw [copy, hy]
  simp only [copied, hr, List.take_succ_eq_append_getElem hi, List.overwrite_concat, hl,
    List.modify_eq_set_getElem?, List.getElem?_set_self hw]
  simp

variable [DecidableEq δ] {sha256 : List UInt8 → δ} {std : StdSort}

theorem run_copied (hn : x.task.nextCopy w = some (t, pos)) (hw : w < x.copies.length)
    (hi : i + n = t.data.length) :
    Machine.run (step sha256 std) (x.copied w t pos i) (.replicate n (.copy w 0)) =
      some (x.copied w t pos t.data.length) := by
  induction n generalizing i
  case zero      => rw [← hi]; rfl
  case succ n ih =>
    rw [List.replicate_succ, Machine.run, step, Option.bind_some, copy_copied hn hw (by omega)]
    exact ih (by omega)

-- A worker begins to copy a piece, copies its bytes and goes on.
def copyOps (w : Nat) (t : PieceTask) : List Op :=
  .io w :: .replicate t.data.length (.copy w 0) ++ [.io w]

theorem run_copyOps {τ : Task δ} (hn : x.task.nextCopy w = some (t, pos))
    (hc : x.copies[w]? = some none) (hs : x.task.ioStep w = some τ) :
    Machine.run (step sha256 std) x (copyOps w t) = some { x with task := τ } := by
  obtain ⟨hw, hnone⟩ := List.getElem?_eq_some_iff.mp hc
  obtain ⟨k, hk⟩ := Task.ioStep_of_nextCopy hn hs
  have hfst : x.io w = some (x.copied w t pos 0) := by
    rw [io, hs, hn, hc, copied, List.take_zero, List.overwrite_nil, List.drop_zero]
    rfl
  have hlst : (x.copied w t pos t.data.length).io w = some { x with task := τ } := by
    have hτ : τ = { x.task with file := x.task.file.overwrite pos t.data }.setWorker w k :=
      Option.some.inj (hs.symm.trans (hk x.task.file))
    have hn' : (x.copied w t pos t.data.length).task.nextCopy w = some (t, pos) := hn
    have hs' := hk (x.task.file.overwrite pos (t.data.take t.data.length))
    rw [io, hn', copied, hs', List.getElem?_set_self hw, List.take_length,
      List.drop_of_length_le (by rw [List.length_range]), List.set_set, ← hnone,
      List.set_getElem_self, hτ]
    rfl
  exact Machine.run_append.mpr ⟨_, Machine.run_cons.mpr ⟨_, hfst, run_copied hn hw (Nat.zero_add _)⟩,
    Machine.run_cons.mpr ⟨_, hlst, rfl⟩⟩

theorem hash_slice (hp : p < x.workers.length) (hb : v.data = some base)
    (hf : base + v.length.toNat ≤ x.task.file.length) (hi : i < v.length.toNat) :
    (x.setWorker p (.hashes v (x.task.file.slice base i))).hash sha256 p =
      some (x.setWorker p (.hashes v (x.task.file.slice base (i + 1)))) := by
  have hl : (x.task.file.slice base i).length = i := List.length_slice (by omega)
  have hy := List.getElem?_eq_getElem (show base + i < x.task.file.length by omega)
  rw [hash, setWorker, List.getElem?_set_self hp]
  simp only [hl, if_pos hi, hb, hy, Option.bind_eq_bind, Option.bind_some, List.slice_succ hy]
  simp [setWorker]

theorem run_hash (hp : p < x.workers.length) (hb : v.data = some base)
    (hf : base + v.length.toNat ≤ x.task.file.length) (hn : i + n = v.length.toNat) :
    Machine.run (step sha256 std) (x.setWorker p (.hashes v (x.task.file.slice base i)))
      (.replicate n (.hash p)) =
        some (x.setWorker p (.hashes v (x.task.file.slice base v.length.toNat))) := by
  induction n generalizing i
  case zero      => rw [← hn]; rfl
  case succ n ih =>
    rw [List.replicate_succ, Machine.run, step, hash_slice hp hb hf (by omega), Option.bind_some]
    exact ih (by omega)

-- A worker takes a task and reads the whole chunk.
def readOps (p k : Nat) (v : VerifyTask δ) : List Op :=
  .take p k :: .replicate v.length.toNat (.hash p)

-- It goes on to report what the task reports.
theorem run_readOps (hp : x.workers[p]? = some (.reports .idle))
    (hv : x.task.verifyTasks[k]? = some v) (hb : v.data = some base)
    (hf : base + v.length.toNat ≤ x.task.file.length) :
    ∃ read y, Machine.run (step sha256 std) x (readOps p k v) = some y ∧
      y.workers = x.workers.set p (.hashes v read) ∧ v.length.toNat ≤ read.length ∧
      x.task.verifyStep sha256 k =
        some { y.task with results := x.task.results ++ [v.result sha256 read] } := by
  have hlt := (List.getElem?_eq_some_iff.mp hp).choose
  let y : Verifying δ := { x with
    task := { x.task with verifyTasks := x.task.verifyTasks.eraseIdx k } }
  have ht : x.take p k = y.setWorker p (.hashes v (y.task.file.slice base 0)) := by
    simp only [take, hp, hv]
    rfl
  refine ⟨_, _, Machine.run_cons.mpr ⟨_, congrArg some ht, run_hash hlt hb hf (Nat.zero_add _)⟩, rfl,
    Nat.le_of_eq (List.length_slice hf).symm, ?_⟩
  simp only [Task.verifyStep, hv, hb]
  rfl

end Verifying

end ThinBT
