import ThinBT.Assembler.Threads
import ThinBT.Util.Lists

namespace ThinBT

namespace ChunkAssembler

-- Sizes for which the number of slots is computed without overflow.
structure Sized (chunkSize subBlockSize : UInt32) : Prop where
  chunk : 1 ≤ chunkSize
  block : 1 ≤ subBlockSize
  slots : chunkSize.toNat + subBlockSize.toNat - 1 < 2 ^ 32

-- The sub-block of a slot, in natural numbers.
structure Fills (chunkSize subBlockSize : UInt32) (i : Nat) (begin : UInt32) (length : Nat) :
    Prop where
  begins : begin.toNat = i * subBlockSize.toNat
  inside : i * subBlockSize.toNat < chunkSize.toNat
  length : length = min subBlockSize.toNat (chunkSize.toNat - i * subBlockSize.toNat)

section Sizes

variable {chunkSize subBlockSize : UInt32} {base : Option Nat}

theorem Sized.block_pos (h : Sized chunkSize subBlockSize) : 0 < subBlockSize.toNat :=
  UInt32.le_iff_toNat_le.mp h.block

theorem Sized.toNat_slotCount (h : Sized chunkSize subBlockSize) :
    (slotCount chunkSize subBlockSize).toNat =
      (chunkSize.toNat + subBlockSize.toNat - 1) / subBlockSize.toNat := by
  have hc := h.slots
  have hb := h.block_pos
  have h1 : (1 : UInt32).toNat = 1 := rfl
  rw [slotCount, UInt32.toNat_div, UInt32.toNat_sub, UInt32.toNat_add, h1]
  congr 1
  omega

theorem Sized.lt_slotCount_iff (h : Sized chunkSize subBlockSize) :
    i < (slotCount chunkSize subBlockSize).toNat ↔ i * subBlockSize.toNat < chunkSize.toNat := by
  have hb := h.block_pos
  rw [h.toNat_slotCount, Nat.lt_iff_add_one_le, Nat.le_div_iff_mul_le hb, Nat.succ_mul]
  omega

theorem Sized.slotCount_pos (h : Sized chunkSize subBlockSize) :
    0 < (slotCount chunkSize subBlockSize).toNat := by
  rw [h.lt_slotCount_iff, Nat.zero_mul]
  exact UInt32.le_iff_toNat_le.mp h.chunk

theorem Sized.fills (h : Sized chunkSize subBlockSize)
    (hi : i < (slotCount chunkSize subBlockSize).toNat) :
    Fills chunkSize subBlockSize i (.ofNat i * subBlockSize)
      (min subBlockSize (chunkSize - .ofNat i * subBlockSize)).toNat := by
  have hlt := h.lt_slotCount_iff.mp hi
  have hc := chunkSize.toNat_lt
  have hb : (UInt32.ofNat i * subBlockSize).toNat = i * subBlockSize.toNat := by
    have hi : i < UInt32.size := Nat.lt_trans hi (UInt32.toNat_lt _)
    rw [UInt32.toNat_mul, UInt32.toNat_ofNat_of_lt' hi, Nat.mod_eq_of_lt (Nat.lt_trans hlt hc)]
  refine ⟨hb, hlt, ?_⟩
  have hs : (chunkSize - .ofNat i * subBlockSize).toNat =
      chunkSize.toNat - i * subBlockSize.toNat := by
    rw [UInt32.toNat_sub_of_le _ _ (UInt32.le_iff_toNat_le.mpr (hb ▸ Nat.le_of_lt hlt)), hb]
  rw [← hs]
  exact UInt32.toNat_min ..

theorem Sized.exists_fills {data : List UInt8} (h : Sized chunkSize subBlockSize)
    (hw : ∃ b ∈ (init base chunkSize subBlockSize).subBlocks,
      begin = b.begin ∧ data.length = b.length.toNat) :
    ∃ i, Fills chunkSize subBlockSize i begin data.length := by
  obtain ⟨b, hb, rfl, hl⟩ := hw
  obtain ⟨i, hi, rfl⟩ := List.mem_map.mp hb
  exact ⟨i, hl ▸ h.fills (List.mem_range.mp hi)⟩

theorem Fills.slot_eq (h : Fills chunkSize subBlockSize i begin n) (hs : Sized chunkSize subBlockSize) :
    (begin / subBlockSize).toNat = i := by
  rw [UInt32.toNat_div, h.begins]
  exact Nat.mul_div_cancel i hs.block_pos

theorem Fills.begin_eq (h : Fills chunkSize subBlockSize i begin n)
    (h' : Fills chunkSize subBlockSize i begin' m) : begin = begin' :=
  UInt32.toNat_inj.mp (h.begins.trans h'.begins.symm)

theorem Fills.length_eq (h : Fills chunkSize subBlockSize i begin n)
    (h' : Fills chunkSize subBlockSize j begin m) (hs : Sized chunkSize subBlockSize) : n = m := by
  obtain rfl : i = j := (h.slot_eq hs).symm.trans (h'.slot_eq hs)
  rw [h.length, h'.length]

theorem Fills.end_le (h : Fills chunkSize subBlockSize i begin n) :
    begin.toNat + n ≤ chunkSize.toNat := by
  have hl := h.length
  have hi := h.inside
  rw [h.begins]
  omega

theorem Fills.accepts (h : Fills chunkSize subBlockSize i begin n) :
    (init (some b) chunkSize subBlockSize).accepts begin (.ofNat n) := by
  have he := h.end_le
  have hc := chunkSize.toNat_lt
  have hn : (UInt32.ofNat n).toNat = n := UInt32.toNat_ofNat_of_lt' (by rw [UInt32.size]; omega)
  refine Bool.and_eq_true_iff.mpr ⟨rfl, decide_eq_true ?_⟩
  rw [UInt32.le_iff_toNat_le, UInt32.toNat_add, hn, Nat.mod_eq_of_lt (by omega)]
  exact he

-- The sub-blocks of two slots have no bytes in common.
theorem Fills.disjoint (h : Fills chunkSize subBlockSize i begin n)
    (h' : Fills chunkSize subBlockSize j begin' m) (hne : begin ≠ begin') :
    begin.toNat + n ≤ begin'.toNat ∨ begin'.toNat + m ≤ begin.toNat := by
  have hn := h.length
  have hm := h'.length
  rw [h.begins, h'.begins]
  rcases Nat.lt_trichotomy i j with hij | hij | hij
  · have := Nat.mul_le_mul_right subBlockSize.toNat (Nat.succ_le_of_lt hij)
    rw [Nat.succ_mul] at this
    omega
  · exact absurd (UInt32.toNat_inj.mp (by rw [h.begins, h'.begins, hij])) hne
  · have := Nat.mul_le_mul_right subBlockSize.toNat (Nat.succ_le_of_lt hij)
    rw [Nat.succ_mul] at this
    omega

-- The mask has a bit for every slot, unless the number of its words is computed with an overflow.
theorem Sized.slotCount_le_mask (h : Sized chunkSize subBlockSize) (base : Option Nat)
    (hm : 1 < subBlockSize ∨ chunkSize.toNat + 31 < 2 ^ 32) :
    (slotCount chunkSize subBlockSize).toNat ≤
      32 * (init base chunkSize subBlockSize).completedMask.length := by
  have hs : (slotCount chunkSize subBlockSize).toNat + 31 < 2 ^ 32 := by
    cases hm
    case inl hm =>
      have hc := h.slots
      have hm : 2 ≤ subBlockSize.toNat := UInt32.lt_iff_toNat_lt.mp hm
      have := Nat.div_le_div_left hm (a := chunkSize.toNat + subBlockSize.toNat - 1) (by decide)
      rw [h.toNat_slotCount]
      omega
    case inr hm =>
      have hc : (slotCount chunkSize subBlockSize).toNat ≤ chunkSize.toNat := by
        refine Nat.le_of_not_lt fun hlt => ?_
        have := h.lt_slotCount_iff.mp hlt
        have := Nat.le_mul_of_pos_right chunkSize.toNat h.block_pos
        omega
      omega
  have h31 : (31 : UInt32).toNat = 31 := rfl
  have h32 : (32 : UInt32).toNat = 32 := rfl
  rw [init, List.length_replicate, UInt32.toNat_div, UInt32.toNat_add, h31, h32,
    Nat.mod_eq_of_lt hs]
  omega

theorem Sized.mask_eq_nil (h : Sized chunkSize subBlockSize)
    (hm : ¬(1 < subBlockSize ∨ chunkSize.toNat + 31 < 2 ^ 32)) :
    (init base chunkSize subBlockSize).completedMask = [] := by
  rw [not_or] at hm
  have hb : subBlockSize = 1 := by
    have hb := h.block_pos
    have hm := UInt32.lt_iff_toNat_lt.not.mp hm.left
    have h1 : (1 : UInt32).toNat = 1 := rfl
    rw [← UInt32.toNat_inj]
    omega
  have hc := chunkSize.toNat_lt
  have h31 : (31 : UInt32).toNat = 31 := rfl
  have h32 : (32 : UInt32).toNat = 32 := rfl
  have hz : ((slotCount chunkSize subBlockSize + 31) / 32).toNat = 0 := by
    rw [UInt32.toNat_div, UInt32.toNat_add, h.toNat_slotCount, hb, h31, h32, UInt32.toNat_one,
      Nat.div_one]
    omega
  rw [init, hz]
  rfl

end Sizes

end ChunkAssembler

-- The steps that a call has left at most.
def Progress.left : Progress → Nat
  | .called     => 3
  | .copied     => 2
  | .marked     => 1
  | .returned _ => 0

theorem Progress.left_le (p : Progress) : p.left ≤ 3 := by
  cases p <;> simp [left]

theorem Progress.returned_of_left {p : Progress} (h : p.left = 0) : ∃ r, p = .returned r := by
  cases p
  case returned r => exact ⟨r, rfl⟩
  all_goals cases h

-- The call has set the bit of a slot, which may have been set before.
def Call.marks (subBlockSize : UInt32) (i : Nat) (c : Call) : Bool :=
  match c.progress with
  | .marked | .returned _ => (c.begin / subBlockSize).toNat == i
  | _                     => false

theorem Call.slot_of_marks {subBlockSize : UInt32} {c : Call} (h : c.marks subBlockSize i) :
    (c.begin / subBlockSize).toNat = i := by
  unfold Call.marks at h
  split at h
  case h_3 => cases h
  all_goals exact beq_iff_eq.mp h

theorem Call.copied_of_marks {subBlockSize : UInt32} {c : Call} (h : c.marks subBlockSize i) :
    c.progress ≠ .called := by
  intro hc
  rw [Call.marks, hc] at h
  cases h

namespace Threads

-- The piece of a call is one of the sub-blocks of the chunk.
def Label.WellFormed (a : ChunkAssembler) : Label → Prop
  | .call begin data => ∃ b ∈ a.subBlocks, begin = b.begin ∧ data.length = b.length.toNat
  | .step _          => True

instance {a : ChunkAssembler} : (l : Label) → Decidable (l.WellFormed a)
  | .call begin data => inferInstanceAs
    (Decidable (∃ b ∈ a.subBlocks, begin = b.begin ∧ data.length = b.length.toNat))
  | .step _          => .isTrue trivial

variable {base : Nat} {chunkSize subBlockSize : UInt32} {s s' : Threads}

-- The number of calls that have got to some point.
def callsAt (s : Threads) (p : Progress) : Nat :=
  s.calls.countP (·.progress = p)

-- The bytes in the memory of a sub-block are those of a piece that was delivered for it.
def Stored (s : Threads) (base : Nat) (begin : UInt32) : Prop :=
  ∃ c ∈ s.calls, c.begin = begin ∧ c.progress ≠ .called ∧
    s.memory.slice (base + begin.toNat) c.data.length = c.data

-- What holds in every state that calls with well-formed pieces lead to. A slot that a call has marked is
-- counted in the mask, but not yet in `pending_count_`.
structure Interleaved (base : Nat) (chunkSize subBlockSize : UInt32) (s : Threads) : Prop where
  frame       : s.assembler.SameFrame (.init (some base) chunkSize subBlockSize)
  memory      : base + chunkSize.toNat ≤ s.memory.length
  fills       : ∀ c ∈ s.calls,
    ∃ i, ChunkAssembler.Fills chunkSize subBlockSize i c.begin c.data.length
  received    : ∀ i, s.assembler.received i = s.calls.any (·.marks subBlockSize i)
  stored      : ∀ c ∈ s.calls, c.progress ≠ .called → s.Stored base c.begin
  pending     : s.assembler.pendingCount.toNat + Bitset.size s.assembler.completedMask =
    s.assembler.totalSlots.toNat + s.callsAt .marked
  completed   : s.callsAt (.returned true) = if s.assembler.pendingCount = 0 then 1 else 0

open ChunkAssembler (Sized Fills)

theorem Interleaved.exists_marks (h : s.Interleaved base chunkSize subBlockSize)
    (hs : Sized chunkSize subBlockSize) (hr : s.assembler.received i) :
    ∃ c ∈ s.calls, c.progress ≠ .called ∧
      Fills chunkSize subBlockSize i c.begin c.data.length := by
  rw [h.received, List.any_eq_true] at hr
  obtain ⟨c, hc, hi⟩ := hr
  obtain ⟨j, hf⟩ := h.fills c hc
  obtain rfl : j = i := (hf.slot_eq hs).symm.trans (Call.slot_of_marks hi)
  exact ⟨c, hc, Call.copied_of_marks hi, hf⟩

theorem Interleaved.received_lt (h : s.Interleaved base chunkSize subBlockSize)
    (hs : Sized chunkSize subBlockSize) (hr : s.assembler.received i) :
    i < s.assembler.totalSlots.toNat := by
  obtain ⟨c, _, _, hf⟩ := h.exists_marks hs hr
  rw [h.frame.totalSlots]
  exact hs.lt_slotCount_iff.mpr hf.inside

theorem Interleaved.totalSlots_le_mask (h : s.Interleaved base chunkSize subBlockSize)
    (hs : Sized chunkSize subBlockSize)
    (hm : 1 < subBlockSize ∨ chunkSize.toNat + 31 < 2 ^ 32) :
    s.assembler.totalSlots.toNat ≤ 32 * s.assembler.completedMask.length := by
  rw [h.frame.totalSlots, h.frame.maskLength]
  exact hs.slotCount_le_mask _ hm

-- The calls that are about to count down are at most what `pending_count_` has left.
theorem Interleaved.callsAt_marked_le (h : s.Interleaved base chunkSize subBlockSize)
    (hs : Sized chunkSize subBlockSize)
    (hm : 1 < subBlockSize ∨ chunkSize.toNat + 31 < 2 ^ 32) :
    s.callsAt .marked ≤ s.assembler.pendingCount.toNat := by
  have := Bitset.size_le_of_bit (fun _ hr => h.received_lt hs hr) (h.totalSlots_le_mask hs hm)
  have := h.pending
  omega

section Calls

variable {k : Nat} {c d : Call} {p : Progress}

theorem mem_proceed_self (hc : s.calls[k]? = some c) :
    { c with progress := p } ∈ (s.proceed k c p).calls :=
  List.mem_set ((List.getElem?_eq_some_iff.mp hc).choose) _

theorem mem_proceed_of_ne (hc : s.calls[k]? = some c) (hd : d ∈ s.calls) (hne : d ≠ c) :
    d ∈ (s.proceed k c p).calls := by
  obtain ⟨j, hj⟩ := List.getElem?_of_mem hd
  have hk : k ≠ j := fun hk => hne (Option.some.inj (hj.symm.trans (hk ▸ hc)))
  exact List.mem_of_getElem? ((List.getElem?_set_ne hk).trans hj)

theorem fills_proceed (hc : s.calls[k]? = some c)
    (h : ∀ c ∈ s.calls, ∃ i, Fills chunkSize subBlockSize i c.begin c.data.length) :
    ∀ d ∈ (s.proceed k c p).calls, ∃ i, Fills chunkSize subBlockSize i d.begin d.data.length := by
  intro d hd
  cases List.mem_or_eq_of_mem_set hd
  case inl hd => exact h d hd
  case inr hd => exact hd ▸ h c (List.mem_of_getElem? hc)

theorem callsAt_proceed (hc : s.calls[k]? = some c) :
    (s.proceed k c p).callsAt r + (if c.progress = r then 1 else 0) =
      s.callsAt r + if p = r then 1 else 0 := by
  have := List.countP_set_add (p := fun c => c.progress = r) (y := { c with progress := p }) hc
  simp only [decide_eq_true_eq] at this
  exact this

theorem any_proceed {q : Call → Bool} (hc : s.calls[k]? = some c)
    (hq : q { c with progress := p } = q c) : (s.proceed k c p).calls.any q = s.calls.any q := by
  obtain ⟨r, hr, hr'⟩ := List.any_set (p := q) hc
  rw [hr, ← hq]
  exact hr' _

theorem Stored.proceed (h : s.Stored base begin) (hc : s.calls[k]? = some c) (hp : p ≠ .called) :
    (s.proceed k c p).Stored base begin := by
  obtain ⟨d, hd, hb, hn, hm⟩ := h
  by_cases he : d = c
  case pos =>
    subst he
    exact ⟨_, mem_proceed_self hc, hb, hp, hm⟩
  case neg => exact ⟨d, mem_proceed_of_ne hc hd he, hb, hn, hm⟩

-- A step after the copy.
theorem stored_proceed (hc : s.calls[k]? = some c) (hn : c.progress ≠ .called) (hp : p ≠ .called)
    (h : ∀ d ∈ s.calls, d.progress ≠ .called → s.Stored base d.begin) :
    ∀ d ∈ (s.proceed k c p).calls, d.progress ≠ .called →
      (s.proceed k c p).Stored base d.begin := by
  intro d hd hdn
  cases List.mem_or_eq_of_mem_set hd
  case inl hd => exact (h d hd hdn).proceed hc hp
  case inr hd => exact hd ▸ (h c (List.mem_of_getElem? hc) hn).proceed hc hp

end Calls

variable {k : Nat} {a : ChunkAssembler}

theorem Interleaved.call (h : s.Interleaved base chunkSize subBlockSize)
    (hf : Fills chunkSize subBlockSize i begin data.length) :
    Interleaved base chunkSize subBlockSize { s with calls := s.calls ++ [{ begin, data }] } where
  frame       := h.frame
  memory      := h.memory
  fills c hc  := by
    cases List.mem_append.mp hc
    case inl hc => exact h.fills c hc
    case inr hc => exact List.mem_singleton.mp hc ▸ ⟨i, hf⟩
  received i  := by
    rw [List.any_append, ← h.received]
    exact (Bool.or_false _).symm
  stored c hc hn := by
    cases List.mem_append.mp hc
    case inl hc =>
      obtain ⟨d, hd, hs⟩ := h.stored c hc hn
      exact ⟨d, List.mem_append_left _ hd, hs⟩
    case inr hc => exact absurd (List.mem_singleton.mp hc ▸ rfl) hn
  pending     := by
    rw [callsAt, List.countP_append]
    exact h.pending
  completed   := by
    rw [callsAt, List.countP_append]
    exact h.completed

theorem Interleaved.copy (h : s.Interleaved base chunkSize subBlockSize)
    (hc : s.calls[k]? = some ⟨begin, data, .called⟩) :
    Interleaved base chunkSize subBlockSize
      ({ s with memory := s.memory.overwrite (base + begin.toNat) data }.proceed k
        ⟨begin, data, .called⟩ .copied) := by
  have hf : ∃ i, Fills chunkSize subBlockSize i begin data.length :=
    h.fills _ (List.mem_of_getElem? hc)
  obtain ⟨i, hf⟩ := hf
  have hl := h.memory
  have he := hf.end_le
  refine ⟨h.frame, ?_, fills_proceed hc h.fills, fun i => ?_, fun d hd hn => ?_, ?_, ?_⟩
  · rw [proceed, List.length_overwrite]
    exact hl
  · have hm := any_proceed (p := .copied) (q := (·.marks subBlockSize i)) hc rfl
    exact (h.received i).trans hm.symm
  · by_cases hb : d.begin = begin
    case pos =>
      refine ⟨_, mem_proceed_self hc, hb.symm, Progress.noConfusion, ?_⟩
      rw [hb]
      exact List.slice_overwrite_self (by omega)
    case neg =>
      have hd : d ∈ s.calls := by
        cases List.mem_or_eq_of_mem_set hd
        case inl hd => exact hd
        case inr hd => exact absurd (hd ▸ rfl) hb
      obtain ⟨e, he, hbe, hne, hm⟩ := h.stored d hd hn
      obtain ⟨j, hj⟩ := h.fills e he
      have hec : e ≠ ⟨begin, data, .called⟩ := fun hec => hne (hec ▸ rfl)
      refine ⟨e, mem_proceed_of_ne hc he hec, hbe, hne, ?_⟩
      refine (List.MatchesOn.slice_overwrite fun n hn hk => ?_).trans hm
      have := hf.disjoint hj (fun hb' => hb (hbe.symm.trans hb'.symm))
      rw [hbe] at this
      omega
  · exact h.pending.trans (congrArg _ (callsAt_proceed (p := .copied) (r := .marked) hc).symm)
  · exact (callsAt_proceed (p := .copied) (r := .returned true) hc).trans h.completed

theorem Interleaved.mark (h : s.Interleaved base chunkSize subBlockSize)
    (hc : s.calls[k]? = some ⟨begin, data, .copied⟩)
    (hm : s.assembler.Marked (s.assembler.slot begin) a first) :
    Interleaved base chunkSize subBlockSize ({ s with assembler := a }.proceed k
      ⟨begin, data, .copied⟩ (if first then .marked else .returned false)) := by
  have hslot : s.assembler.slot begin = (begin / subBlockSize).toNat := by
    rw [ChunkAssembler.slot, h.frame.subBlockSize]
    rfl
  have hp : (if first then Progress.marked else .returned false) ≠ .called := by
    cases first <;> exact Progress.noConfusion
  refine ⟨hm.frame.trans h.frame, h.memory, fills_proceed hc h.fills, fun i => ?_,
    stored_proceed hc Progress.noConfusion hp h.stored, ?_, ?_⟩
  · obtain ⟨r, hr, hr'⟩ := List.any_set (p := (·.marks subBlockSize i)) hc
    refine (hm.received i).trans (Eq.trans ?_ (hr' _).symm)
    rw [h.received, hr, hslot]
    cases first <;> exact congrArg (· || r) BEq.comm
  · have hn := callsAt_proceed (p := if first then .marked else .returned false) (r := .marked) hc
    have hb := h.pending
    change a.pendingCount.toNat + Bitset.size a.completedMask =
      a.totalSlots.toNat + (s.proceed k _ _).callsAt .marked
    rw [hm.pending, hm.size, hm.frame.totalSlots]
    cases hr : s.assembler.received (s.assembler.slot begin)
    all_goals
      rw [hm.first, hr] at hn ⊢
      simp at hn ⊢
      omega
  · have hn := callsAt_proceed (p := if first then .marked else .returned false)
      (r := .returned true) hc
    change (s.proceed k _ _).callsAt _ = if a.pendingCount = 0 then 1 else 0
    rw [hm.pending]
    refine Eq.trans ?_ h.completed
    cases first <;> exact hn

theorem Interleaved.count (h : s.Interleaved base chunkSize subBlockSize)
    (hs : Sized chunkSize subBlockSize)
    (hm : 1 < subBlockSize ∨ chunkSize.toNat + 31 < 2 ^ 32)
    (hc : s.calls[k]? = some ⟨begin, data, .marked⟩) :
    Interleaved base chunkSize subBlockSize ({ s with assembler := s.assembler.countDown.1 }.proceed k
      ⟨begin, data, .marked⟩ (.returned s.assembler.countDown.2)) := by
  -- The call is one of those that `pending_count_` has left.
  have hle := h.callsAt_marked_le hs hm
  have h1 : 0 < s.callsAt .marked :=
    List.countP_pos_iff.mpr ⟨_, List.mem_of_getElem? hc, decide_eq_true rfl⟩
  have hd : (s.assembler.pendingCount - 1).toNat = s.assembler.pendingCount.toNat - 1 :=
    UInt32.toNat_sub_of_le _ _ (UInt32.le_iff_toNat_le.mpr (Nat.le_trans h1 hle))
  refine ⟨ChunkAssembler.countDown_frame.trans h.frame, h.memory, fills_proceed hc h.fills,
    fun i => ?_, stored_proceed hc Progress.noConfusion Progress.noConfusion h.stored, ?_, ?_⟩
  · have hm := any_proceed (p := .returned s.assembler.countDown.2)
      (q := (·.marks subBlockSize i)) hc rfl
    exact (h.received i).trans hm.symm
  · have hn := callsAt_proceed (p := .returned s.assembler.countDown.2) (r := .marked) hc
    have hb := h.pending
    change (s.assembler.pendingCount - 1).toNat + Bitset.size s.assembler.completedMask =
      s.assembler.totalSlots.toNat + (s.proceed k _ _).callsAt .marked
    simp only [if_true, reduceCtorEq, if_false] at hn
    omega
  · have hn := callsAt_proceed (p := .returned s.assembler.countDown.2) (r := .returned true) hc
    have hz : s.assembler.pendingCount ≠ 0 := by
      intro hz
      rw [hz, UInt32.toNat_zero] at hle
      omega
    have ho : s.assembler.pendingCount - 1 = 0 ↔ s.assembler.pendingCount = 1 := by
      rw [← UInt32.toNat_inj, ← UInt32.toNat_inj, hd, UInt32.toNat_zero, UInt32.toNat_one]
      omega
    change (s.proceed k _ _).callsAt _ = if s.assembler.pendingCount - 1 = 0 then 1 else 0
    rw [h.completed, if_neg hz, Nat.zero_add] at hn
    simp only [ho]
    simpa [ChunkAssembler.countDown] using hn

theorem Interleaved.moves (h : s.Interleaved base chunkSize subBlockSize)
    (hs : Sized chunkSize subBlockSize) (hm : 1 < subBlockSize ∨ chunkSize.toNat + 31 < 2 ^ 32)
    (hl : l.WellFormed (.init (some base) chunkSize subBlockSize))
    (hn : s.Moves l s') : s'.Interleaved base chunkSize subBlockSize := by
  cases hn
  case call =>
    obtain ⟨i, hf⟩ := hs.exists_fills hl
    exact h.call hf
  case rest => exact h
  case refuse begin data k hc ha =>
    obtain ⟨i, hf⟩ := h.fills _ (List.mem_of_getElem? hc)
    rw [h.frame.accepts] at ha
    exact absurd hf.accepts ha
  case copy hc hb =>
    obtain rfl := Option.some.inj (h.frame.base.symm.trans hb)
    exact h.copy hc
  case mark hc hm => exact h.mark hc hm
  case count hc   => exact h.count hs hm hc

theorem Interleaved.next_defined (h : s.Interleaved base chunkSize subBlockSize)
    (hs : Sized chunkSize subBlockSize) (hm : 1 < subBlockSize ∨ chunkSize.toNat + 31 < 2 ^ 32) :
    ∃ s', s.next l = some s' := by
  cases l
  case call => exact ⟨_, rfl⟩
  case step k =>
    rw [next]
    split
    case h_2 => exact ⟨_, rfl⟩
    case h_1 c hc =>
      obtain ⟨i, hf⟩ := h.fills c (List.mem_of_getElem? hc)
      unfold advance
      split
      case h_1 =>
        have ha : s.assembler.accepts c.begin (.ofNat c.data.length) := by
          rw [h.frame.accepts]
          exact hf.accepts
        have hw : c.begin.toNat + c.data.length ≤ s.assembler.chunkSize.toNat := by
          rw [h.frame.chunkSize]
          exact hf.end_le
        have hb : s.assembler.base = some base := h.frame.base
        rw [if_pos ha, ChunkAssembler.write, hb]
        simp only [if_pos hw]
        exact ⟨_, rfl⟩
      case h_2 =>
        have hi : s.assembler.slot c.begin = i := by
          rw [h.frame.slot]
          exact hf.slot_eq hs
        have hlt : i < (ChunkAssembler.slotCount chunkSize subBlockSize).toNat :=
          hs.lt_slotCount_iff.mpr hf.inside
        have hmask := hs.slotCount_le_mask (some base) hm
        rw [ChunkAssembler.mark, h.frame.maskLength, hi, if_pos (by omega)]
        exact ⟨_, rfl⟩
      case h_3 => exact ⟨_, rfl⟩
      case h_4 => exact ⟨_, rfl⟩

theorem Interleaved.run (h : s.Interleaved base chunkSize subBlockSize)
    (hs : Sized chunkSize subBlockSize) (hm : 1 < subBlockSize ∨ chunkSize.toNat + 31 < 2 ^ 32)
    (hl : ∀ l ∈ ls, l.WellFormed (.init (some base) chunkSize subBlockSize)) :
    ∃ s', s.run ls = some s' ∧ s'.Interleaved base chunkSize subBlockSize := by
  induction ls generalizing s
  case nil => exact ⟨s, rfl, h⟩
  case cons l ls hi =>
    obtain ⟨t, ht⟩ := h.next_defined (l := l) hs hm
    have ⟨hl, hls⟩ := List.forall_mem_cons.mp hl
    obtain ⟨s', hr, hs'⟩ := hi (h.moves hs hm hl (moves_of_next ht)) hls
    exact ⟨s', Machine.run_cons.mpr ⟨t, ht, hr⟩, hs'⟩

-- Each step of a call leaves it fewer steps, and those of other calls do not concern it.
theorem Moves.left_le {c : Call} (h : s.Moves l s') (hc : s.calls[k]? = some c) :
    ∃ c', s'.calls[k]? = some c' ∧
      c'.progress.left ≤ c.progress.left - if l = .step k then 1 else 0 := by
  have proceeds {t : Threads} {j : Nat} {d : Call} {p : Progress} (ht : t.calls = s.calls)
      (hd : s.calls[j]? = some d) (hp : p.left < d.progress.left) :
      ∃ c', (t.proceed j d p).calls[k]? = some c' ∧
        c'.progress.left ≤ c.progress.left - if Label.step j = .step k then 1 else 0 := by
    rw [proceed, ht]
    by_cases hj : j = k
    case pos =>
      subst hj
      obtain rfl := Option.some.inj (hc.symm.trans hd)
      refine ⟨_, List.getElem?_set_self (List.getElem?_eq_some_iff.mp hc).choose, ?_⟩
      rw [if_pos rfl]
      exact Nat.le_sub_one_of_lt hp
    case neg =>
      refine ⟨c, (List.getElem?_set_ne hj).trans hc, ?_⟩
      rw [if_neg fun he => hj (Label.step.inj he)]
      exact Nat.le_refl _
  cases h
  case call =>
    refine ⟨c, ?_, Nat.le_refl _⟩
    rw [List.getElem?_append_left (List.getElem?_eq_some_iff.mp hc).choose]
    exact hc
  case rest j hr =>
    refine ⟨c, hc, ?_⟩
    split
    case isTrue he =>
      obtain ⟨r, hr⟩ := hr c (Label.step.inj he ▸ hc)
      rw [hr]
      exact Nat.le_refl _
    case isFalse => exact Nat.le_refl _
  case refuse hd _ => exact proceeds rfl hd (show 0 < 3 by decide)
  case copy hd _   => exact proceeds rfl hd (show 2 < 3 by decide)
  case mark hd _   =>
    refine proceeds rfl hd ?_
    split
    case isTrue  => exact show 1 < 2 by decide
    case isFalse => exact show 0 < 2 by decide
  case count hd    => exact proceeds rfl hd (show 0 < 1 by decide)

theorem left_le_of_run {c : Call} (h : s.run ls = some s') (hc : s.calls[k]? = some c) :
    ∃ c', s'.calls[k]? = some c' ∧ c'.progress.left ≤ c.progress.left - ls.count (.step k) := by
  induction ls generalizing s c
  case nil =>
    obtain rfl := Option.some.inj h
    exact ⟨c, hc, Nat.le_refl _⟩
  case cons l ls hi =>
    obtain ⟨t, ht, h⟩ := Machine.run_cons.mp h
    obtain ⟨d, hd, hle⟩ := (moves_of_next ht).left_le hc
    obtain ⟨c', hc', hle'⟩ := hi h hd
    refine ⟨c', hc', ?_⟩
    rw [List.count_cons]
    simp only [beq_iff_eq]
    omega

def start (base : Nat) (chunkSize subBlockSize : UInt32) (memory : List UInt8) : Threads where
  assembler := .init (some base) chunkSize subBlockSize
  memory    := memory

-- `pending_count_` does not wrap below zero, the chunk is complete only if all of its slots are
-- marked and hold the bytes of pieces, at most one call returns true, and exactly one does if all
-- slots are delivered and all calls have returned. A call returns after three steps of its own,
-- whatever the other threads do.
structure CompletesOnce (s : Threads) (base : Nat) : Prop where
  counting  : 0 < s.callsAt .marked → s.assembler.pendingCount ≠ 0
  complete  : ∀ i b, s.assembler.isComplete → s.assembler.subBlocks[i]? = some b →
    s.assembler.received i ∧ ∃ c ∈ s.calls, c.begin = b.begin ∧ c.progress ≠ .called ∧
      s.memory.slice (base + b.begin.toNat) b.length.toNat = c.data
  once      : s.callsAt (.returned true) ≤ 1
  delivered : (∀ b ∈ s.assembler.subBlocks, ∃ c ∈ s.calls, c.begin = b.begin) →
    (∀ c ∈ s.calls, ∃ r, c.progress = .returned r) → s.callsAt (.returned true) = 1
  returns   : ∀ k < s.calls.length, ∀ ls s', s.run ls = some s' → 3 ≤ ls.count (.step k) →
    ∃ begin data r, s'.calls[k]? = some ⟨begin, data, .returned r⟩

theorem interleaved_start {memory : List UInt8} (hs : Sized chunkSize subBlockSize)
    (hm : base + chunkSize.toNat ≤ memory.length) :
    (start base chunkSize subBlockSize memory).Interleaved base chunkSize subBlockSize where
  frame       := .refl
  memory      := hm
  fills       := nofun
  received i  := Bitset.bit_replicate_zero
  stored      := nofun
  pending     := congrArg (_ + ·) Bitset.size_replicate_zero
  completed   := by
    have h0 := hs.slotCount_pos
    have hp : (start base chunkSize subBlockSize memory).assembler.pendingCount ≠ 0 := by
      intro hp
      have hp : ChunkAssembler.slotCount chunkSize subBlockSize = 0 := hp
      rw [hp] at h0
      cases h0
    rw [if_neg hp]
    rfl

-- The slots of the sub-blocks and of the pieces for them.
theorem Interleaved.fills_subBlock (h : s.Interleaved base chunkSize subBlockSize)
    (hs : Sized chunkSize subBlockSize) {i : Nat} {b : SubBlock}
    (hb : s.assembler.subBlocks[i]? = some b) :
    Fills chunkSize subBlockSize i b.begin b.length.toNat ∧ i < s.assembler.totalSlots.toNat := by
  rw [ChunkAssembler.subBlocks, List.getElem?_map] at hb
  obtain ⟨j, hj, rfl⟩ := Option.map_eq_some_iff.mp hb
  obtain ⟨hlt, rfl⟩ := List.getElem?_eq_some_iff.mp hj
  rw [List.length_range] at hlt
  refine ⟨?_, hlt⟩
  rw [h.frame.totalSlots] at hlt
  rw [List.getElem_range, h.frame.subBlockSize, h.frame.chunkSize]
  exact hs.fills hlt

-- `is_complete` holds exactly when all slots are marked and counted.
theorem Interleaved.pending_eq_zero_iff (h : s.Interleaved base chunkSize subBlockSize)
    (hs : Sized chunkSize subBlockSize) (hm : 1 < subBlockSize ∨ chunkSize.toNat + 31 < 2 ^ 32) :
    s.assembler.pendingCount = 0 ↔
      (∀ i < s.assembler.totalSlots.toNat, s.assembler.received i) ∧ s.callsAt .marked = 0 := by
  have hle := h.callsAt_marked_le hs hm
  have hb := h.pending
  have hall := Bitset.size_eq_iff (fun _ hr => h.received_lt hs hr) (h.totalSlots_le_mask hs hm)
  rw [← UInt32.toNat_inj, UInt32.toNat_zero]
  constructor
  · intro hz
    exact ⟨hall.mp (by omega), by omega⟩
  · intro ⟨hr, hn⟩
    have hsize := hall.mpr hr
    omega

-- The bytes of a slot that is marked are those of a piece for it.
theorem Interleaved.exists_stored (h : s.Interleaved base chunkSize subBlockSize)
    (hs : Sized chunkSize subBlockSize) (hr : s.assembler.received i)
    (hb : s.assembler.subBlocks[i]? = some b) :
    ∃ c ∈ s.calls, c.begin = b.begin ∧ c.progress ≠ .called ∧
      s.memory.slice (base + b.begin.toNat) b.length.toNat = c.data := by
  obtain ⟨hf, _⟩ := h.fills_subBlock hs hb
  obtain ⟨c, hc, hn, hi⟩ := h.exists_marks hs hr
  obtain ⟨d, hd, hdc, hdn, hm⟩ := h.stored c hc hn
  obtain ⟨j, hj⟩ := h.fills d hd
  have hdb : d.begin = b.begin := hdc.trans (hi.begin_eq hf)
  have hl : d.data.length = b.length.toNat := Fills.length_eq (hdb ▸ hj) hf hs
  refine ⟨d, hd, hdb, hdn, ?_⟩
  rwa [hl, hi.begin_eq hf] at hm

-- All slots are marked once their pieces have been delivered.
theorem Interleaved.received_of_delivered (h : s.Interleaved base chunkSize subBlockSize)
    (hs : Sized chunkSize subBlockSize)
    (hd : ∀ b ∈ s.assembler.subBlocks, ∃ c ∈ s.calls, c.begin = b.begin)
    (hr : ∀ c ∈ s.calls, ∃ r, c.progress = .returned r) (hi : i < s.assembler.totalSlots.toNat) :
    s.assembler.received i := by
  have hl : i < s.assembler.subBlocks.length := by
    rw [ChunkAssembler.subBlocks, List.length_map, List.length_range]
    exact hi
  obtain ⟨hf, _⟩ := h.fills_subBlock hs (List.getElem?_eq_getElem hl)
  obtain ⟨c, hc, hb⟩ := hd _ (List.getElem_mem hl)
  obtain ⟨r, hp⟩ := hr c hc
  rw [h.received, List.any_eq_true]
  refine ⟨c, hc, ?_⟩
  rw [Call.marks, hp, hb]
  exact beq_iff_eq.mpr (hf.slot_eq hs)

theorem Interleaved.completesOnce (h : s.Interleaved base chunkSize subBlockSize)
    (hs : Sized chunkSize subBlockSize) (hm : 1 < subBlockSize ∨ chunkSize.toNat + 31 < 2 ^ 32) :
    s.CompletesOnce base where
  counting h0 hz := Nat.ne_of_gt h0 ((h.pending_eq_zero_iff hs hm).mp hz).right
  complete i b hc hb := by
    have hz : s.assembler.pendingCount = 0 := of_decide_eq_true hc
    have hr := ((h.pending_eq_zero_iff hs hm).mp hz).left i (h.fills_subBlock hs hb).right
    exact ⟨hr, h.exists_stored hs hr hb⟩
  once := by
    rw [h.completed]
    split <;> decide
  delivered hd hr := by
    have hn : s.callsAt .marked = 0 := by
      rw [callsAt, List.countP_eq_zero]
      intro c hc
      obtain ⟨r, hp⟩ := hr c hc
      simp [hp]
    have hz := (h.pending_eq_zero_iff hs hm).mpr
      ⟨fun _ => h.received_of_delivered hs hd hr, hn⟩
    rw [h.completed, if_pos hz]
  returns k hk ls s' hr h3 := by
    obtain ⟨c, hc, hl⟩ := left_le_of_run hr (List.getElem?_eq_getElem hk)
    have h3' : s.calls[k].progress.left ≤ 3 := Progress.left_le _
    obtain ⟨r, hp⟩ := Progress.returned_of_left (p := c.progress) (by omega)
    exact ⟨c.begin, c.data, r, hc.trans (hp ▸ rfl)⟩

-- If the sizes make the number of mask words overflow, the first piece is written outside of the mask.
theorem run_start_eq_none {memory : List UInt8} (hs : Sized chunkSize subBlockSize)
    (hm : ¬(1 < subBlockSize ∨ chunkSize.toNat + 31 < 2 ^ 32))
    (hf : Fills chunkSize subBlockSize i begin data.length) :
    (start base chunkSize subBlockSize memory).run
      (.call begin data :: List.replicate 3 (.step 0)) = none := by
  have hn : (ChunkAssembler.init (some base) chunkSize subBlockSize).mark begin = none := by
    rw [ChunkAssembler.mark, hs.mask_eq_nil hm]
    exact if_neg (Nat.not_lt_zero _)
  have ho : (ChunkAssembler.init (some base) chunkSize subBlockSize).onPiece begin data memory =
      none := by
    rw [ChunkAssembler.onPiece, if_pos hf.accepts, hn]
    cases ChunkAssembler.write _ begin data memory <;> rfl
  refine (run_alone (start base chunkSize subBlockSize memory) begin data).trans ?_
  exact congrArg (Option.map _) ho

-- There is a piece for the first slot.
theorem exists_wellFormed (base : Option Nat) (hs : Sized chunkSize subBlockSize) :
    ∃ begin data, Label.WellFormed (.init base chunkSize subBlockSize) (.call begin data) :=
  ⟨_, .replicate _ 0, _, List.mem_map.mpr ⟨0, List.mem_range.mpr hs.slotCount_pos, rfl⟩, rfl,
    List.length_replicate⟩

theorem completes_once_iff (base : Nat) (chunkSize subBlockSize : UInt32) (memory : List UInt8)
    (hs : Sized chunkSize subBlockSize) (hm : base + chunkSize.toNat ≤ memory.length) :
    (∀ labels, (∀ l ∈ labels, l.WellFormed (.init (some base) chunkSize subBlockSize)) →
      ∃ s, (start base chunkSize subBlockSize memory).run labels = some s ∧ s.CompletesOnce base) ↔
      1 < subBlockSize ∨ chunkSize.toNat + 31 < 2 ^ 32 := by
  constructor
  · intro h
    by_contra hn
    obtain ⟨begin, data, hw⟩ := exists_wellFormed (some base) hs
    obtain ⟨i, hf⟩ := hs.exists_fills hw
    have hl : ∀ l ∈ Label.call begin data :: List.replicate 3 (.step 0),
        l.WellFormed (.init (some base) chunkSize subBlockSize) := by
      refine List.forall_mem_cons.mpr ⟨hw, fun l hl => ?_⟩
      exact List.eq_of_mem_replicate hl ▸ trivial
    obtain ⟨s, hr, _⟩ := h _ hl
    rw [run_start_eq_none hs hn hf] at hr
    cases hr
  · intro hc labels hl
    obtain ⟨s, hr, hi⟩ := (interleaved_start hs hm).run hs hc hl
    exact ⟨s, hr, hi.completesOnce hs hc⟩

-- Two threads deliver the first sub-block at once, and a third one the second sub-block.
theorem threeThreads_complete_once :
    ∃ s, (start 0 3 2 [0, 0, 0]).run [.call 0 [7, 8], .call 0 [7, 8], .call 2 [9], .step 0, .step 1,
      .step 1, .step 2, .step 0, .step 2, .step 2, .step 1] = some s ∧ s.CompletesOnce 0 :=
  (completes_once_iff 0 3 2 [0, 0, 0] ⟨by decide, by decide, by decide⟩ (by decide)).mpr
    (.inl (by decide)) _ (by decide)

-- For this chunk, `(total_slots_ + 31) / 32` is zero.
theorem overflowing_mask_is_overrun :
    Sized 4294967295 1 ∧ Label.WellFormed (.init (some 0) 4294967295 1) (.call 0 [7]) ∧
      (start 0 4294967295 1 (.replicate 4294967295 0)).run
        [.call 0 [7], .step 0, .step 0, .step 0] = none := by
  have hs : Sized 4294967295 1 := ⟨by decide, by decide, by decide⟩
  have h0 : 0 < (ChunkAssembler.slotCount 4294967295 1).toNat := by decide
  refine ⟨hs, ⟨_, List.mem_map.mpr ⟨0, List.mem_range.mpr h0, rfl⟩, rfl, rfl⟩, ?_⟩
  exact run_start_eq_none hs (by decide) (hs.fills h0)

end Threads
end ThinBT
