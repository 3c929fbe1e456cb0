import ThinBT.Task.Theorems.Downloads
import ThinBT.Session.Theorems.Pieces

namespace ThinBT

namespace ChunkAssembler

variable {a a' : ChunkAssembler}

-- What `on_piece` does to an assembler if it does not reject the piece.
structure Took (a : ChunkAssembler) (begin : UInt32) (a' : ChunkAssembler) : Prop where
  frame    : SameFrame a' a
  received : ∀ s, a'.received s = (s == a.slot begin || a.received s)
  again    : a.received (a.slot begin) → a' = a

theorem onPiece_of_not_accepts (h : ¬a.accepts begin (.ofNat data.length)) :
    a.onPiece begin data file = some (a, file, false) := by
  rw [onPiece, if_neg h]
  rfl

theorem onPiece_of_accepts {base : Nat} (h : a.accepts begin (.ofNat data.length))
    (hb : a.base = some base)
    (hl : begin.toNat + data.length ≤ a.chunkSize.toNat)
    (hm : a.slot begin / 32 < a.completedMask.length) :
    ∃ a' r, a.onPiece begin data file =
      some (a', file.overwrite (base + begin.toNat) data, r) ∧ a.Took begin a' := by
  have hw : a.write begin data file = some (file.overwrite (base + begin.toNat) data) := by
    simp only [write, hb, if_pos hl]
  obtain ⟨⟨a₁, first⟩, hf⟩ : ∃ x, a.mark begin = some x := by
    rw [mark, if_pos hm]
    exact ⟨_, rfl⟩
  have hk := mark_eq_some hf
  simp only [onPiece, if_pos h, hw, hf, Option.bind_eq_bind, Option.bind_some]
  cases first
  case true =>
    refine ⟨_, _, rfl, countDown_frame.trans hk.frame, hk.received, fun hr => ?_⟩
    have := hk.first
    rw [hr] at this
    cases this
  case false =>
    refine ⟨_, _, rfl, hk.frame, hk.received, fun hr => ?_⟩
    rw [mark, if_pos hm, Bitset.setBit_eq_self hr] at hf
    exact (congrArg Prod.fst (Option.some.inj hf)).symm

-- A piece that is not rejected leaves the memory of the chunk or of the mask.
theorem onPiece_eq_none (h : a.accepts begin (.ofNat data.length))
    (hm : ¬(begin.toNat + data.length ≤ a.chunkSize.toNat ∧
      a.slot begin / 32 < a.completedMask.length)) :
    a.onPiece begin data file = none := by
  by_contra hs
  obtain ⟨x, hx⟩ := Option.ne_none_iff_exists'.mp hs
  simp only [onPiece, if_pos h, Option.bind_eq_bind, Option.bind_eq_some_iff] at hx
  obtain ⟨file', hw, y, hy, _⟩ := hx
  obtain ⟨_, _, hl, _⟩ := write_eq_some hw
  refine hm ⟨hl, ?_⟩
  by_contra hn
  rw [mark, if_neg hn] at hy
  cases hy

end ChunkAssembler

namespace Task

section Definitions

variable {δ : Type}

-- What `worker_loop` does with a piece that it has taken from its queue, if no other worker runs in
-- between.
def processPiece (τ : Task δ) (t : PieceTask) : Option (Task δ) := do
  let a ← τ.assemblers[t.chunkIdx.toNat]?
  let x ← a.onPiece t.begin t.data τ.file
  let τ' := { τ with file := x.2.1 }.setAssembler t.chunkIdx.toNat x.1
  if x.2.2 then
    let e ← τ.seed.chunks[t.chunkIdx.toNat]?
    return τ'.enqueueVerify x.1 e t
  else return τ'

-- The piece has changed nothing, or only the bytes that it names and the bit of its slot.
inductive Contained (τ : Task δ) (t : PieceTask) (τ' : Task δ) : Prop
  | unchanged : τ'.assemblers = τ.assemblers → τ'.file = τ.file → Contained τ t τ'
  | inside {e : ChunkEntry δ} :
    τ.seed.chunks[t.chunkIdx.toNat]? = some e → τ.assemblers[t.chunkIdx.toNat]? = some a →
    t.begin.toNat + t.data.length ≤ e.length.toNat → a.slot t.begin < a.totalSlots.toNat →
    τ'.file = τ.file.overwrite (e.offset.toNat + t.begin.toNat) t.data →
    τ'.assemblers = τ.assemblers.set t.chunkIdx.toNat a' → a'.SameFrame a →
    (∀ s, a'.received s = (s == a.slot t.begin || a.received s)) → Contained τ t τ'

-- The piece is for a chunk of the task. It is rejected, also if its end is computed on `uint32_t`, or
-- it lies inside the chunk together with the start of its sub-block. The bit of a slot behind the
-- last one can only be set if it already is.
def Fits (τ : Task δ) (t : PieceTask) : Prop :=
  ∃ e a, τ.seed.chunks[t.chunkIdx.toNat]? = some e ∧ τ.assemblers[t.chunkIdx.toNat]? = some a ∧
    (e.length < t.begin + t.length ∨
      t.begin.toNat + t.data.length ≤ e.length.toNat ∧
        (a.slot t.begin < a.totalSlots.toNat ∨ a.received (a.slot t.begin)))

end Definitions

variable {δ : Type} {τ τ' : Task δ}

theorem Layout.processPiece_of_onPiece (h : τ.Layout)
    (ha : τ.assemblers[t.chunkIdx.toNat]? = some a)
    (ho : a.onPiece t.begin t.data τ.file = some (a', bytes, r)) :
    ∃ τ', τ.processPiece t = some τ' ∧ τ'.assemblers = τ.assemblers.set t.chunkIdx.toNat a' ∧
      τ'.file = bytes := by
  obtain ⟨e, he, _⟩ := h.exists_entry ha
  simp only [processPiece, ha, ho, he, Option.bind_eq_bind, Option.bind_some]
  split
  all_goals exact ⟨_, rfl, rfl, rfl⟩

-- An assembler with a base rejects a piece exactly if its end is behind the chunk.
theorem not_accepts_iff {a : ChunkAssembler} {e : ChunkEntry δ} {t : PieceTask}
    (ha : a.Assembles e n) (hb : a.base = some base) :
    ¬a.accepts t.begin t.length ↔ e.length < t.begin + t.length := by
  rw [ChunkAssembler.accepts, hb, ha.chunkSize, Option.isSome_some, Bool.true_and, decide_eq_true_eq,
    UInt32.not_le]

theorem Fits.contained (h : τ.Layout) (hb : ∀ a ∈ τ.assemblers, a.base.isSome) (hf : τ.Fits t) :
    ∃ τ', τ.processPiece t = some τ' ∧ τ.Contained t τ' := by
  obtain ⟨e, a, he, ha, hf⟩ := hf
  have hA := h.assembles ha he
  obtain ⟨base, hb⟩ := Option.isSome_iff_exists.mp (hb a (List.mem_of_getElem? ha))
  obtain ⟨rfl, _, hm⟩ := hA.base_eq hb
  by_cases hc : a.accepts t.begin t.length
  case neg =>
    obtain ⟨τ', hp, hs, hf⟩ := h.processPiece_of_onPiece ha (a.onPiece_of_not_accepts hc)
    exact ⟨τ', hp, .unchanged (hs.trans (List.set_eq_self ha)) hf⟩
  case pos =>
    have ⟨hl, hs⟩ := hf.resolve_left fun hr => (not_accepts_iff hA hb).mpr hr hc
    have hw : a.slot t.begin / 32 < a.completedMask.length := by
      have := hA.totalSlots_le_mask
      cases hs
      case inl hs => omega
      case inr hr => exact Bitset.lt_length_of_bit hr
    obtain ⟨a', r, ho, ht⟩ := ChunkAssembler.onPiece_of_accepts hc hb (hA.chunkSize ▸ hl) hw
    obtain ⟨τ', hp, hs', hf⟩ := h.processPiece_of_onPiece ha ho
    refine ⟨τ', hp, ?_⟩
    by_cases hs'' : a.slot t.begin < a.totalSlots.toNat
    case pos => exact .inside he ha hl hs'' hf hs' ht.frame ht.received
    case neg =>
      -- The piece is empty and its bit is set.
      have hn : t.data = [] := by
        rw [hA.lt_totalSlots_iff hm, hA.slot_eq] at hs''
        have hd := Nat.div_mul_le_self t.begin.toNat subBlockSize
        exact List.eq_nil_of_length_eq_zero (by omega)
      rw [hn, List.overwrite_nil] at hf
      rw [ht.again (hs.resolve_left hs'')] at hs'
      exact .unchanged (hs'.trans (List.set_eq_self ha)) hf

theorem Contained.fits (h : τ.Layout) (hb : ∀ a ∈ τ.assemblers, a.base.isSome)
    (hp : τ.processPiece t = some τ') (hc : τ.Contained t τ') : τ.Fits t := by
  obtain ⟨a, ha, hx⟩ := Option.bind_eq_some_iff.mp hp
  obtain ⟨⟨a', file, r⟩, ho, _⟩ := Option.bind_eq_some_iff.mp hx
  obtain ⟨e, he, hA⟩ := h.exists_entry ha
  obtain ⟨base, hb⟩ := Option.isSome_iff_exists.mp (hb a (List.mem_of_getElem? ha))
  refine ⟨e, a, he, ha, ?_⟩
  by_cases hacc : a.accepts t.begin t.length
  case neg => exact .inl ((not_accepts_iff hA hb).mp hacc)
  case pos =>
    have hin : t.begin.toNat + t.data.length ≤ a.chunkSize.toNat ∧
        a.slot t.begin / 32 < a.completedMask.length := by
      by_contra hn
      rw [ChunkAssembler.onPiece_eq_none hacc hn] at ho
      cases ho
    refine .inr ⟨hA.chunkSize ▸ hin.left, ?_⟩
    obtain ⟨a₁, r₁, ho₁, ht⟩ := ChunkAssembler.onPiece_of_accepts hacc hb hin.left hin.right
    obtain ⟨τ₁, hp₁, hs, _⟩ := h.processPiece_of_onPiece ha ho₁
    obtain rfl : τ₁ = τ' := Option.some.inj (hp₁.symm.trans hp)
    cases hc
    case inside b b' e' _ hb' _ hs' _ _ _ _ =>
      obtain rfl : b = a := Option.some.inj (hb'.symm.trans ha)
      exact .inl hs'
    case unchanged hu _ =>
      have hlt := (List.getElem?_eq_some_iff.mp ha).choose
      have he₁ : some a₁ = some a := by
        rw [← ha, ← hu, hs, List.getElem?_set_self hlt]
      refine .inr ?_
      have := ht.received (a.slot t.begin)
      rwa [Option.some.inj he₁, beq_self_eq_true, Bool.true_or] at this

theorem getElem?_setWorker (hk : τ.workers[w]? = some k) :
    (τ.setWorker w k').workers[w]? = some k' :=
  List.getElem?_set_self (List.getElem?_eq_some_iff.mp hk).choose

section Stages

variable {a : ChunkAssembler} {t : PieceTask} {q : List PieceTask}

theorem ioStep_idle (hk : τ.workers[w]? = some ⟨t :: q, .idle⟩)
    (ha : τ.assemblers[t.chunkIdx.toNat]? = some a) (hc : a.accepts t.begin t.length) :
    τ.ioStep w = (a.write t.begin t.data τ.file).bind fun bytes =>
      some ({ τ with file := bytes }.setWorker w ⟨q, .written t⟩) := by
  simp only [ioStep, hk, ha, hc, Option.bind_eq_bind, Option.bind_some, if_true]
  rfl

theorem ioStep_written (hk : τ.workers[w]? = some ⟨q, .written t⟩)
    (ha : τ.assemblers[t.chunkIdx.toNat]? = some a) :
    τ.ioStep w = (a.mark t.begin).bind fun x =>
      some ((τ.setAssembler t.chunkIdx.toNat x.1).setWorker w
        ⟨q, if x.2 then .marked t else .idle⟩) := by
  simp only [ioStep, hk, ha, Option.bind_eq_bind, Option.bind_some]
  rfl

theorem ioStep_marked (hk : τ.workers[w]? = some ⟨q, .marked t⟩)
    (ha : τ.assemblers[t.chunkIdx.toNat]? = some a)
    (he : τ.seed.chunks[t.chunkIdx.toNat]? = some e) :
    τ.ioStep w =
      let τ' := (τ.setAssembler t.chunkIdx.toNat a.countDown.1).setWorker w ⟨q, .idle⟩
      some (if a.countDown.2 then τ'.enqueueVerify a e t else τ') := by
  simp only [ioStep, hk, ha, he, Option.bind_eq_bind, Option.bind_some]
  rfl

end Stages

section Runs

variable [DecidableEq δ] {sha256 : List UInt8 → δ} {std : StdSort}

-- A worker that is not interrupted processes the next piece of its queue in at most three steps.
theorem run_io_eq_processPiece (h : τ.Layout) (hk : τ.workers[w]? = some ⟨t :: q, .idle⟩) :
    ∃ n ≤ 3, Machine.run (step sha256 std) τ (.replicate n (.io w)) =
      (τ.processPiece t).map (·.setWorker w ⟨q, .idle⟩) := by
  cases ha : τ.assemblers[t.chunkIdx.toNat]?
  case none => exact ⟨1, by omega, by simp [Machine.run, step, ioStep, processPiece, hk, ha]⟩
  case some a =>
    by_cases hc : a.accepts t.begin t.length
    case neg =>
      have ho : a.onPiece t.begin t.data τ.file = _ := a.onPiece_of_not_accepts hc
      refine ⟨1, by omega, ?_⟩
      simp [Machine.run, step, ioStep, processPiece, hk, ha, hc, ho, setAssembler, List.set_eq_self ha]
    case pos =>
      obtain ⟨e, he, _⟩ := h.exists_entry ha
      have hlt := (List.getElem?_eq_some_iff.mp ha).choose
      have ho : a.onPiece t.begin t.data τ.file = (a.write t.begin t.data τ.file).bind fun bytes =>
          (a.mark t.begin).bind fun x =>
            if x.2 then some (x.1.countDown.1, bytes, x.1.countDown.2)
            else some (x.1, bytes, false) := if_pos hc
      have hi := ioStep_idle hk ha hc
      cases hw : a.write t.begin t.data τ.file
      case none =>
        refine ⟨1, by omega, ?_⟩
        simp only [List.replicate, Machine.run, step, hi, processPiece, ha, ho, hw,
          Option.bind_eq_bind, Option.bind_some, Option.bind_none, Option.map_none]
      case some bytes =>
        have hs := ioStep_written (τ := { τ with file := bytes }.setWorker w ⟨q, .written t⟩)
          (getElem?_setWorker hk) ha
        cases hm : a.mark t.begin
        case none =>
          refine ⟨2, by omega, ?_⟩
          simp only [List.replicate, Machine.run, step, hi, hs, processPiece, ha, ho, hw, hm,
            Option.bind_eq_bind, Option.bind_some, Option.bind_none, Option.map_none]
        case some x =>
          obtain ⟨a', first⟩ := x
          cases first
          case false =>
            refine ⟨2, by omega, ?_⟩
            simp only [List.replicate, Machine.run, step, hi, hs, processPiece, ha, ho, hw, hm,
              Option.bind_eq_bind, Option.bind_some, Bool.false_eq_true, if_false]
            simp only [setWorker, setAssembler, List.set_set]
            rfl
          case true =>
            have hd := ioStep_marked (τ := (({ τ with file := bytes }.setWorker w
              ⟨q, .written t⟩).setAssembler t.chunkIdx.toNat a').setWorker w ⟨q, .marked t⟩)
              (getElem?_setWorker (getElem?_setWorker hk)) (List.getElem?_set_self hlt) he
            refine ⟨3, by omega, ?_⟩
            simp only [List.replicate, Machine.run, step, hi, hs, hd, processPiece, ha, ho, hw, hm,
              Option.bind_eq_bind, Option.bind_some, if_true, he]
            simp only [setWorker, setAssembler, List.set_set]
            cases a'.countDown.2
            all_goals rfl

theorem Opened.base_isSome_of_run (h : τ.Opened)
    (hr : Machine.run (step sha256 std) τ ops = some τ') : ∀ a ∈ τ'.assemblers, a.base.isSome := by
  have start : ∀ a ∈ τ.assemblers, a.base.isSome := by
    intro a ha
    obtain ⟨c, hc⟩ := List.mem_iff_getElem?.mp ha
    obtain ⟨base, size, rfl⟩ := h.exists_base hc
    rfl
  refine Machine.run_invariant (fun τ => ∀ a ∈ τ.assemblers, a.base.isSome) ?_ start hr
  intro τ op τ' hb hs a' ha'
  obtain ⟨c, hc⟩ := List.mem_iff_getElem?.mp ha'
  obtain ⟨a, ha, hf⟩ := frame_step hs hc
  exact hf.base ▸ hb a (List.mem_of_getElem? ha)

-- A piece only touches the chunk that it names exactly if it fits.
theorem piece_is_contained_iff {ops : List Op} (t : PieceTask) (now : UInt64)
    (h₀ : Downloads sha256 std τ₀) (hr : Machine.run (step sha256 std) τ₀ ops = some τ) :
    (∃ τ', (τ.handlePieceMsg std t now).processPiece t = some τ' ∧ τ.Contained t τ') ↔
      τ.Fits t := by
  have hl : τ.Layout :=
    Machine.run_invariant Layout (fun _ _ _ h hs => h.step hs) h₀.opened.layout hr
  have hl' : (τ.handlePieceMsg std t now).Layout :=
    hl.step (show τ.step sha256 std (.piece t now) = some _ from rfl)
  have hb := h₀.opened.base_isSome_of_run hr
  -- The message handler leaves the assemblers and the file alone.
  have hc {τ' : Task δ} : (τ.handlePieceMsg std t now).Contained t τ' ↔ τ.Contained t τ' := by
    constructor
    all_goals
      intro hc
      cases hc
      case unchanged ha hf                   => exact .unchanged ha hf
      case inside he ha hn hs hf has hfr hrc => exact .inside he ha hn hs hf has hfr hrc
  constructor
  · rintro ⟨τ', hp, hc'⟩
    have hf : (τ.handlePieceMsg std t now).Fits t := (hc.mpr hc').fits hl' hb hp
    exact hf
  · intro hf
    have hf' : (τ.handlePieceMsg std t now).Fits t := hf
    obtain ⟨τ', hp, hc'⟩ := hf'.contained hl' hb
    exact ⟨τ', hp, hc.mp hc'⟩

end Runs

section Stray

-- A task for a single chunk of two bytes.
def straySeed : TSeedFile Unit where
  fileSize := 2
  config   := {}
  chunks   := [⟨0, 2, ()⟩]
  countLt  := by decide

def strayStart : Task Unit :=
  (cmdAdd (fun _ => ()) .stable straySeed none 2 100 [0]).get (by decide +kernel)

theorem single_byte_is_contained :
    ∃ τ', (strayStart.handlePieceMsg .stable ⟨0, 1, 0, [7], by decide⟩ 5).processPiece
        ⟨0, 1, 0, [7], by decide⟩ = some τ' ∧
      strayStart.Contained ⟨0, 1, 0, [7], by decide⟩ τ' := by
  have hr : Machine.run (step (fun _ => ()) .stable) strayStart [] = some strayStart := rfl
  refine (piece_is_contained_iff _ 5 (.cmdAdd (Option.some_get _).symm) hr).mpr ?_
  refine ⟨⟨0, 2, ()⟩, .init (some 0) 2 (.ofNat subBlockSize), rfl, by decide +kernel, .inr ?_⟩
  exact ⟨by decide, .inl (by decide)⟩

-- Pieces for a chunk that does not exist, and with an end that wraps around to the chunk.
theorem stray_pieces_leave_memory :
    (strayStart.handlePieceMsg .stable ⟨1, 0, 0, [7], by decide⟩ 5).processPiece
        ⟨1, 0, 0, [7], by decide⟩ = none ∧
      (strayStart.handlePieceMsg .stable ⟨0, 0xFFFFFFFF, 0, [7], by decide⟩ 5).processPiece
        ⟨0, 0xFFFFFFFF, 0, [7], by decide⟩ = none := by
  decide +kernel

end Stray

end Task
end ThinBT
