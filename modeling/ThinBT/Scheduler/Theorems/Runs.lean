import ThinBT.Scheduler.Theorems.Outcome
import Mathlib.Data.List.GetD

namespace ThinBT.Scheduler

variable {std : StdSort} {ops : List Op} {total : UInt32} {speed : Nat} {sizes : List UInt32}

theorem getD_assignRows {counts : List Nat} :
    (assignRows (.replicate n []) counts v).getD c [] =
      .replicate (if c < n then counts.getD c 0 else 0) v := by
  simp only [assignRows, List.getD_eq_getElem?_getD, List.getElem?_mapIdx, List.getElem?_replicate]
  by_cases hn : c < n
  case pos =>
    by_cases hc : c < counts.length <;> simp [hn, hc]
  case neg => simp [hn]

theorem subTotal_start {c : Nat} (h : sizes[c]? = some n) :
    (start total speed sizes).subTotal c = subBlockCount n := by
  simp [subTotal, start, setChunkSizes, h]

-- Also if the computation overflows, there are not too many sub-blocks.
theorem inside_of_lt_subBlockCount {size : UInt32} (h : s < subBlockCount size) :
    s * subBlockSize < size.toNat := by
  have hlt := size.toNat_lt
  change s * 16384 < _
  rw [subBlockCount, UInt32.toNat_div, UInt32.toNat_sub, UInt32.toNat_add,
    show (UInt32.ofNat subBlockSize).toNat = 16384 from rfl, UInt32.toNat_one] at h
  omega

theorem subReq_start : (start total speed sizes).subReq c s = false := by
  simp only [subReq, start, setChunkSizes, init, List.entry, getD_assignRows]
  exact List.getElem?_getD_replicate_default_eq ..

theorem subDone_start : (start total speed sizes).subDone c s = false := by
  simp only [subDone, start, setChunkSizes, init, List.entry, getD_assignRows]
  exact List.getElem?_getD_replicate_default_eq ..

theorem shape_start : (start total speed sizes).Shape where
  activeNodup := List.nodup_range
  slotsNodup  := List.nodup_nil
  reqExists   := fun h => by simp [subReq_start] at h
  beginExists := fun h => absurd h List.not_mem_nil
  owned       := fun _ h => by simp [subReq_start] at h
  doneRow     := by
    intro c hc
    rw [totalChunks, start, setChunkSizes, init, List.length_replicate] at hc
    simp only [List.rowLength, start, setChunkSizes, init, getD_assignRows, List.length_replicate,
      if_pos hc]
    rfl

theorem exec_history {σ : Scheduler} : σ.exec (history std σ ops) = run std σ ops :=
  Actions.exec_perform

theorem shape_run (hl : AllOps std Legal (start total speed sizes) ops) :
    (run std (start total speed sizes) ops).Shape :=
  shape_start.run hl

theorem guarded_history (hl : AllOps std Legal (start total speed sizes) ops) :
    (start total speed sizes).Guarded (history std (start total speed sizes) ops) :=
  Actions.AllAt.perform (fun _ _ => Shape.apply) (fun _ _ _ => guarded_actions) shape_start hl

-- A sub-block of an open chunk is done, owned by a current peer or free to be requested.
theorem requested_subblock_has_owner (hl : AllOps std Legal (start total speed sizes) ops)
    (hc : ¬(run std (start total speed sizes) ops).closed c)
    (hr : (run std (start total speed sizes) ops).subReq c s)
    (hd : ¬(run std (start total speed sizes) ops).subDone c s) :
    ∃ p ∈ (run std (start total speed sizes) ops).peerSlots, s * subBlockSize ∈ p.begins c :=
  (shape_run hl).owned hc hr hd

-- Two peers share a chunk. The first one delivers a piece, times out on another one and leaves.
def sharedChunk : List Op := [
  .setCancelIssuer,
  .onPeerAdded 1 1000, .onBitfield 1 [true, true] 5, .onChokeChange 1 false, .tick 10,
  .decPeerPending 1 0 0 12,
  .onPeerAdded 2 1000, .onChokeChange 2 false, .onBitfield 2 [true, false] 15,
  .onSubblockTimeout 0 16384, .tick 100, .onPeerRemoved 1, .tick 200
]

theorem sharedChunk_has_owner :
    ∃ p ∈ (run .stable (start 2 1000 [65536, 100]) sharedChunk).peerSlots,
      1 * subBlockSize ∈ p.begins 0 :=
  requested_subblock_has_owner (by decide +kernel) (by decide +kernel) (by decide +kernel)
    (by decide +kernel)

end ThinBT.Scheduler
