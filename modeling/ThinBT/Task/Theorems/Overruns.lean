import ThinBT.Task.Theorems.Agreement
import ThinBT.Task.Theorems.Measured

namespace ThinBT

section Chunks

variable {δ : Type} {e : ChunkEntry δ} {source : List UInt8}

-- The chunk ends inside of a sub-block, and the file goes on behind it.
def ChunkEntry.Overruns (source : List UInt8) (e : ChunkEntry δ) : Prop :=
  e.length.toNat % subBlockSize ≠ 0 ∧ e.offset.toNat + e.length.toNat < source.length

instance : Decidable (e.Overruns source) :=
  inferInstanceAs (Decidable (_ ∧ _))

def ChunkEntry.lastSubBlock (e : ChunkEntry δ) : Nat :=
  e.length.toNat / subBlockSize

theorem ChunkEntry.Overruns.lastSubBlock_lt (h : e.Overruns source) :
    e.lastSubBlock * subBlockSize < e.length.toNat := by
  have hd := Nat.div_add_mod e.length.toNat subBlockSize
  have hr := Nat.pos_of_ne_zero h.left
  rw [Nat.mul_comm] at hd
  exact Nat.lt_of_lt_of_eq (Nat.lt_add_of_pos_right hr) hd

-- Who sends the last sub-block of the chunk sends what follows it, too.
theorem ChunkEntry.Overruns.length_lt (h : e.Overruns source)
    (hh : Measured source e e.lastSubBlock begin data) :
    e.length.toNat < e.lastSubBlock * subBlockSize + data.length := by
  have hd := Nat.div_add_mod e.length.toNat subBlockSize
  have hr := Nat.mod_lt e.length.toNat (show 0 < subBlockSize by decide)
  have hf := h.right
  rw [Nat.mul_comm] at hd
  rw [hh.length, lastSubBlock]
  omega

end Chunks

namespace Task

variable {δ : Type} {τ τ' : Task δ} {source : List UInt8} {e : ChunkEntry δ} {c s : Nat}

-- The chunk is open, and one of its sub-blocks has not arrived and is not on its way.
structure Starved (τ : Task δ) (c s : Nat) : Prop where
  slot    : ∀ a, τ.assemblers[c]? = some a → s < a.totalSlots.toNat
  missing : ∀ a, τ.assemblers[c]? = some a → (a.received s || τ.onTheWay c s) = false
  opened  : ¬τ.scheduler.closed c

-- The assembler rejects what is sent for the last sub-block of a chunk that overruns.
theorem Layout.rejects (hl : τ.Layout) (he : τ.seed.chunks[c]? = some e) (ho : e.Overruns source)
    (hp : t.IsMeasured source τ.seed) : (t.isFor c e.lastSubBlock && τ.accepts t) = false := by
  refine eq_false_of_ne_true fun h => ?_
  obtain ⟨hf, ha⟩ := Bool.and_eq_true_iff.mp h
  simp only [PieceTask.isFor, Bool.and_eq_true, decide_eq_true_eq] at hf
  obtain ⟨rfl, hs⟩ := hf
  obtain ⟨s, e', he', hh⟩ := hp
  obtain rfl := Option.some.inj (he.symm.trans he')
  rw [hh.begins, Scheduler.mul_subBlockSize_div] at hs
  subst hs
  obtain ⟨a, hc, ha⟩ := (Option.any_eq_true ..).mp ha
  obtain ⟨b, hb⟩ := Option.isSome_iff_exists.mp (Bool.and_eq_true_iff.mp ha).left
  have hle := ((hl.assembles hc he).accepts_iff hb hh).mp ha
  exact Nat.not_le.mpr (ho.length_lt hh) hle

theorem onTheWay_dispatch_eq_false (h : τ.onTheWay c s = false)
    (ht : (t.isFor c s && τ.accepts t) = false) : (τ.dispatch t).onTheWay c s = false := by
  by_cases hw : 0 < τ.workers.length
  case pos => rw [onTheWay_dispatch hw, h, ht, Bool.or_false]
  case neg =>
    have hn : τ.workers = [] := List.eq_nil_of_length_eq_zero (Nat.eq_zero_of_not_pos hw)
    simp [onTheWay, dispatch, hn]

-- A chunk without one of its sub-blocks is not verified.
theorem Starved.inFlight_eq_zero (h : τ.Starved c s) (hs : τ.WellMeasured source)
    (he : τ.seed.chunks[c]? = some e) : τ.inFlight c = 0 := by
  refine Nat.eq_zero_of_not_pos fun hp => ?_
  have hlt : c < τ.assemblers.length := hs.layout.count ▸ (List.getElem?_eq_some_iff.mp he).choose
  have ha := List.getElem?_eq_getElem hlt
  have hA := hs.layout.assembles ha he
  have hsp : _ + _ ≤ _ := (hs.ledger c).spent hp _ ha
  have hbit (s) (hb : Bitset.bit τ.assemblers[c].completedMask s) : s < _ := hs.slots ha hb
  have hle := Bitset.size_le_of_bit hbit hA.totalSlots_le_mask
  have hall := (Bitset.size_eq_iff hbit hA.totalSlots_le_mask).mp (by omega)
  have hr : τ.assemblers[c].received s = false := (Bool.or_eq_false_iff.mp (h.missing _ ha)).left
  exact absurd (hall s (h.slot _ ha)) (Bool.eq_false_iff.mp hr)

section Steps

variable [DecidableEq δ] {sha256 : List UInt8 → δ} {std : StdSort}

theorem Starved.step (h : τ.Starved c e.lastSubBlock) (hs : τ.WellMeasured source)
    (hl : τ.Legal op)
    (hp : ∀ t now, op = .piece t now → t.IsMeasured source τ.seed)
    (he : τ.seed.chunks[c]? = some e) (ho : e.Overruns source)
    (hst : τ.step sha256 std op = some τ') : τ'.Starved c e.lastSubBlock where
  slot a' ha' := by
    obtain ⟨a, ha, hf⟩ := frame_step hst ha'
    rw [hf.totalSlots]
    exact h.slot a ha
  missing a' ha' := by
    cases op
    case io w =>
      have hi := ioStep_cases hst
      obtain ⟨a, ha, _⟩ := hi.frame ha'
      rw [hi.received_or_onTheWay hs.layout ha ha']
      exact h.missing a ha
    case piece t now =>
      cases hst
      obtain ⟨hr, hw⟩ := Bool.or_eq_false_iff.mp (h.missing a' ha')
      have hd := onTheWay_dispatch_eq_false hw (hs.layout.rejects he ho (hp t now rfl))
      exact Bool.or_eq_false_iff.mpr ⟨hr, hd⟩
    case verify k =>
      obtain rfl | ⟨v, base, _, _, rfl⟩ := verifyStep_cases hst
      all_goals exact h.missing a' ha'
    case session | tick =>
      cases hst
      exact h.missing a' ha'
  opened hc := by
    have hlt := (List.getElem?_eq_some_iff.mp he).choose
    obtain hc | ⟨r, hr, hrc, _⟩ := hs.layout.of_closed_step hl.calls hst hlt hc
    case inl => exact h.opened hc
    case inr =>
      have hz := (Nat.add_eq_zero_iff.mp (h.inFlight_eq_zero hs he)).right
      exact List.countP_eq_zero.mp hz r hr (decide_eq_true hrc)

theorem Added.starved (h : Added sha256 std existing speed order τ) (he : τ.seed.chunks[c]? = some e)
    (ho : e.Overruns source) (hc : ¬τ.scheduler.closed c) : τ.Starved c e.lastSubBlock := by
  obtain ⟨w, hw, ha⟩ := h.assemblers
  have init {a} (hc : τ.assemblers[c]? = some a) := (initAssemblers_spec hw ha).right c a e hc he
  refine ⟨fun a ha => ?_, fun a ha => ?_, hc⟩
  · exact ((h.layout.assembles ha he).lt_totalSlots_iff (init ha).right.right).mpr ho.lastSubBlock_lt
  · have hr : a.received e.lastSubBlock = false := (init ha).left ▸ Bitset.bit_replicate_zero
    rw [hr, Drained.onTheWay_eq_false h.workers]
    rfl

end Steps

theorem closed_cmdSeed {std : StdSort} {seed : TSeedFile δ} {bytes : List UInt8}
    (hc : c < seed.chunks.length) : (cmdSeed std seed bytes hw speed).scheduler.closed c := by
  have hl : c < (Scheduler.start seed.chunkCount speed (sizesOf seed)).totalChunks := by
    rw [Scheduler.totalChunks_start, TSeedFile.toNat_chunkCount]
    exact hc
  change (Scheduler.run std (Scheduler.next std _ (.markAllComplete _))
    [.setCancelIssuer, .setNotInterestedIssuer]).closed c
  refine Scheduler.closed_run ⟨.inl trivial, .inl trivial, trivial⟩ (by simp [Scheduler.Op.reopens]) ?_
  rw [Scheduler.closed_markAllComplete hl]
  simp [hc]

end Task
end ThinBT
