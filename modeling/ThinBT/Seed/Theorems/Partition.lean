import ThinBT.Seed.TSeed
import Mathlib.Algebra.BigOperators.Group.Finset.Basic
import Mathlib.Algebra.Order.BigOperators.Group.Finset
import Mathlib.Order.Interval.Finset.Nat

namespace ThinBT.TSeedFile

variable {δ : Type} {seed : TSeedFile δ} {p q : Nat → Bool}

def sizeAt (seed : TSeedFile δ) (c : Nat) : Nat :=
  (seed.chunks[c]?).elim 0 (·.length.toNat)

-- The number of bytes in the chunks that satisfy a predicate.
def bytesIn (seed : TSeedFile δ) (p : Nat → Bool) : Nat :=
  ∑ c ∈ Finset.range seed.chunks.length with p c, seed.sizeAt c

theorem sizeAt_eq {c : Nat} (h : seed.chunks[c]? = some e) : seed.sizeAt c = e.length.toNat := by
  rw [sizeAt, h, Option.elim_some]

theorem bytesIn_congr (h : ∀ c < seed.chunks.length, p c = q c) :
    seed.bytesIn p = seed.bytesIn q := by
  rw [bytesIn, bytesIn]
  congr 1
  refine Finset.filter_congr fun c hc => ?_
  rw [h c (Finset.mem_range.mp hc)]

theorem bytesIn_eq_sum (p : Nat → Bool) :
    seed.bytesIn p = ∑ c ∈ Finset.range seed.chunks.length, (p c).toNat * seed.sizeAt c := by
  rw [bytesIn, Finset.sum_filter]
  refine Finset.sum_congr rfl fun c _ => ?_
  cases p c <;> simp

theorem bytesIn_false : seed.bytesIn (fun _ => false) = 0 := by
  simp [bytesIn_eq_sum]

-- Sums in which every chunk is counted equally often.
theorem bytesIn_add_congr {p q p' q' r' : Nat → Bool}
    (h : ∀ c < seed.chunks.length,
      (p c).toNat + (q c).toNat = (p' c).toNat + (q' c).toNat + (r' c).toNat) :
    seed.bytesIn p + seed.bytesIn q = seed.bytesIn p' + seed.bytesIn q' + seed.bytesIn r' := by
  simp only [bytesIn_eq_sum, ← Finset.sum_add_distrib, ← Nat.add_mul]
  exact Finset.sum_congr rfl fun c hc => by rw [h c (Finset.mem_range.mp hc)]

-- The chunks that a bitfield selects.
theorem bytesIn_getD {bf : List Bool} : seed.bytesIn (bf.getD · false) =
    (((seed.chunks.zip bf).filter (·.2)).map (·.1.length.toNat)).sum := by
  rw [bytesIn_eq_sum]
  unfold sizeAt
  generalize seed.chunks = cs
  induction cs generalizing bf
  case nil => simp
  case cons e cs hi =>
    rw [List.length_cons, Finset.sum_range_succ']
    cases bf
    case nil => simp
    case cons b bf =>
      simp only [List.getD_cons_succ, List.getElem?_cons_succ, List.getD_cons_zero,
        List.getElem?_cons_zero, Option.elim_some, hi, List.zip_cons_cons, List.filter_cons]
      cases b <;> simp [Nat.add_comm]

-- Further chunks add their sizes.
theorem bytesIn_or_mem {cs : List Nat} (hn : cs.Nodup)
    (hc : ∀ c ∈ cs, c < seed.chunks.length ∧ p c = false) :
    seed.bytesIn (fun c => p c || decide (c ∈ cs)) = seed.bytesIn p + (cs.map seed.sizeAt).sum := by
  have hs : (cs.map seed.sizeAt).sum = ∑ c ∈ cs.toFinset, seed.sizeAt c :=
    (List.sum_toFinset seed.sizeAt hn).symm
  have hd : Disjoint ((Finset.range seed.chunks.length).filter (p ·)) cs.toFinset := by
    refine Finset.disjoint_left.mpr fun c hp hm => ?_
    have hf := (hc c (List.mem_toFinset.mp hm)).right
    rw [(Finset.mem_filter.mp hp).right] at hf
    cases hf
  rw [hs, bytesIn, bytesIn, ← Finset.sum_union hd]
  congr 1
  ext c
  simp only [Finset.mem_filter, Finset.mem_range, Finset.mem_union, List.mem_toFinset,
    Bool.or_eq_true, decide_eq_true_eq]
  constructor
  · rintro ⟨hl, hp | hm⟩
    case inl => exact .inl ⟨hl, hp⟩
    case inr => exact .inr hm
  · rintro (⟨hl, hp⟩ | hm)
    case inl => exact ⟨hl, .inl hp⟩
    case inr => exact ⟨(hc c hm).left, .inr hm⟩

-- The positions of a chunk in the file.
def span (seed : TSeedFile δ) (c : Nat) : Finset Nat :=
  (seed.chunks[c]?).elim ∅ fun e => Finset.Ico e.offset.toNat (e.offset.toNat + e.length.toNat)

theorem span_eq {c : Nat} (h : seed.chunks[c]? = some e) :
    seed.span c = Finset.Ico e.offset.toNat (e.offset.toNat + e.length.toNat) := by
  rw [span, h, Option.elim_some]

theorem card_span (c : Nat) : (seed.span c).card = seed.sizeAt c := by
  unfold span sizeAt
  cases seed.chunks[c]?
  case none   => rfl
  case some e => rw [Option.elim_some, Option.elim_some, Nat.card_Ico, Nat.add_sub_cancel_left]

namespace Partitioned

theorem disjoint_span (h : seed.Partitioned) (hc : c < seed.chunks.length)
    (hd : d < seed.chunks.length) (hn : c ≠ d) : Disjoint (seed.span c) (seed.span d) := by
  rw [span_eq (List.getElem?_eq_getElem hc), span_eq (List.getElem?_eq_getElem hd)]
  have hp := List.pairwise_iff_getElem.mp h.disjoint
  refine Finset.disjoint_left.mpr fun k hk hk' => ?_
  rw [Finset.mem_Ico] at hk hk'
  obtain hl | hl := Nat.lt_or_gt_of_ne hn
  · cases hp c d hc hd hl <;> omega
  · cases hp d c hd hc hl <;> omega

theorem biUnion_span (h : seed.Partitioned) :
    (Finset.range seed.chunks.length).biUnion seed.span = Finset.range seed.fileSize.toNat := by
  ext k
  simp only [Finset.mem_biUnion, Finset.mem_range]
  constructor
  · rintro ⟨c, hc, hk⟩
    have he := List.getElem?_eq_getElem hc
    rw [span_eq he, Finset.mem_Ico] at hk
    exact Nat.lt_of_lt_of_le hk.right (h.inside _ (List.mem_of_getElem? he))
  · intro hk
    obtain ⟨e, he, hk⟩ := h.covers k hk
    obtain ⟨c, hc⟩ := List.mem_iff_getElem?.mp he
    refine ⟨c, (List.getElem?_eq_some_iff.mp hc).choose, ?_⟩
    rw [span_eq hc]
    exact Finset.mem_Ico.mpr hk

theorem bytesIn_true (h : seed.Partitioned) :
    seed.bytesIn (fun _ => true) = seed.fileSize.toNat := by
  have hd : (↑(Finset.range seed.chunks.length) : Set Nat).PairwiseDisjoint seed.span := by
    intro c hc d hd hn
    exact h.disjoint_span (Finset.mem_range.mp hc) (Finset.mem_range.mp hd) hn
  calc seed.bytesIn (fun _ => true)
    _ = ∑ c ∈ Finset.range seed.chunks.length, (seed.span c).card := by simp [bytesIn, card_span]
    _ = ((Finset.range seed.chunks.length).biUnion seed.span).card := (Finset.card_biUnion hd).symm
    _ = seed.fileSize.toNat := by rw [h.biUnion_span, Finset.card_range]

theorem bytesIn_le (h : seed.Partitioned) : seed.bytesIn p ≤ seed.fileSize.toNat := by
  rw [← h.bytesIn_true, bytesIn, bytesIn]
  refine Finset.sum_le_sum_of_subset fun c hc => ?_
  exact Finset.mem_filter.mpr ⟨(Finset.mem_filter.mp hc).left, rfl⟩

theorem toNat_bytesIn (h : seed.Partitioned) :
    (UInt64.ofNat (seed.bytesIn p)).toNat = seed.bytesIn p :=
  UInt64.toNat_ofNat_of_lt' (h.bytesIn_le.trans_lt seed.fileSize.toNat_lt)

theorem sizeAt_pos (h : seed.Partitioned) (hc : c < seed.chunks.length) : 0 < seed.sizeAt c := by
  have he := List.getElem?_eq_getElem hc
  rw [sizeAt_eq he]
  exact h.positive _ (List.mem_of_getElem? he)

theorem bytesIn_eq_zero_iff (h : seed.Partitioned) :
    seed.bytesIn p = 0 ↔ ∀ c < seed.chunks.length, p c = false := by
  rw [bytesIn, Finset.sum_eq_zero_iff]
  constructor
  · intro hz c hc
    refine eq_false_of_ne_true fun hp => ?_
    have hs := hz c (Finset.mem_filter.mpr ⟨Finset.mem_range.mpr hc, hp⟩)
    exact absurd hs (Nat.ne_of_gt (h.sizeAt_pos hc))
  · intro hf c hc
    have ⟨hr, hp⟩ := Finset.mem_filter.mp hc
    rw [hf c (Finset.mem_range.mp hr)] at hp
    cases hp

-- All bytes are there exactly if all chunks are.
theorem bytesIn_eq_iff (h : seed.Partitioned) :
    seed.bytesIn p = seed.fileSize.toNat ↔ ∀ c < seed.chunks.length, p c := by
  constructor
  · intro he c hc
    by_contra hp
    have hs : seed.bytesIn (fun d => p d || decide (d ∈ [c])) = _ :=
      bytesIn_or_mem (List.nodup_singleton c) fun d hd => by
        rw [List.mem_singleton.mp hd]
        exact ⟨hc, eq_false_of_ne_true hp⟩
    have hl : seed.bytesIn (fun d => p d || decide (d ∈ [c])) ≤ _ := h.bytesIn_le
    have hz := h.sizeAt_pos hc
    rw [hs, List.map_singleton, List.sum_singleton] at hl
    omega
  · intro hp
    rw [← h.bytesIn_true]
    exact bytesIn_congr hp

end Partitioned

end ThinBT.TSeedFile
