import ThinBT.Cdc.FastCDC
import Mathlib.Algebra.BigOperators.Group.List.Basic

namespace ThinBT

-- The entry of the same chunk in a file with more bytes in front.
def ChunkEntry.shift (e : ChunkEntry δ) (n : Nat) : ChunkEntry δ :=
  { e with offset := e.offset + .ofNat n }

-- The position behind the last byte of the chunk.
def ChunkEntry.stop (e : ChunkEntry δ) : Nat :=
  e.offset.toNat + e.length.toNat

namespace FastCDC

-- The lengths of the chunks of some bytes, of which the first chunk already has `n` more. In
-- contrast to `scanLoop` this does not depend on positions.
def lengths (cfg : FastCDCConfig) : List UInt8 → (n : Nat) → (fingerprint : UInt64) → List Nat
  | [], _, _                     => []
  | byte :: rest, n, fingerprint =>
    let fp := gearUpdate byte fingerprint
    if cuts cfg fp (n + 1) rest.isEmpty then (n + 1) :: lengths cfg rest 0 0
    else lengths cfg rest (n + 1) fp

-- The entries of consecutive chunks with the given lengths.
def entries (sha256 : List UInt8 → δ) (data : List UInt8) (start : Nat) :
    List Nat → List (ChunkEntry δ)
  | []      => []
  | n :: ns => ⟨.ofNat start, .ofNat n, sha256 (data.slice start n)⟩ ::
      entries sha256 data (start + n) ns

-- The lengths and digests of the chunks that start at a position or behind it.
def chunksFrom (start : Nat) (es : List (ChunkEntry δ)) : List (UInt32 × δ) :=
  (es.filter (start ≤ ·.offset.toNat)).map fun e => (e.length, e.sha256)

variable {δ : Type} {sha256 : List UInt8 → δ} {cfg : FastCDCConfig} {data A B : List UInt8}

theorem scanLoop_eq_entries (hr : rest = data.drop i) (hi : start ≤ i) :
    scanLoop sha256 cfg data rest i start fp =
      entries sha256 data start (lengths cfg rest (i - start) fp) := by
  induction rest generalizing i start fp
  case nil => rfl
  case cons byte rest ih =>
    have hl : rest.length + 1 = data.length - i := by
      rw [← List.length_cons (a := byte), hr, List.length_drop]
    have hr' : rest = data.drop (i + 1) := by
      rw [← List.tail_drop, ← hr, List.tail_cons]
    have he : decide (i = data.length - 1) = rest.isEmpty := by
      rw [Bool.eq_iff_iff, decide_eq_true_iff, List.isEmpty_iff_length_eq_zero]
      omega
    have hc : (if i = data.length - 1 then data.length - start else i - start + 1) =
        i - start + 1 := by
      split <;> omega
    simp only [scanLoop, lengths, he, hc]
    split
    case isTrue =>
      have hs : start + (i - start + 1) = i + 1 := by omega
      rw [entries, ih hr' (Nat.le_refl _), hs, Nat.sub_self]
    case isFalse => rw [ih hr' (by omega), Nat.sub_add_comm hi]

theorem scanBuffer_eq_entries :
    scanBuffer sha256 cfg data = entries sha256 data 0 (lengths cfg data 0 0) :=
  scanLoop_eq_entries rfl (Nat.le_refl _)

theorem sum_lengths : (lengths cfg data n fp).sum = if data = [] then 0 else n + data.length := by
  induction data generalizing n fp
  case nil => rfl
  case cons byte rest ih =>
    simp only [lengths]
    split
    case isTrue =>
      rw [List.sum_cons, ih, if_neg (List.cons_ne_nil _ _), List.length_cons]
      split
      case isTrue hr  => rw [hr, List.length_nil]
      case isFalse hr => omega
    case isFalse hc =>
      have hr : rest ≠ [] := fun hr => by simp [hr, cuts] at hc
      rw [ih, if_neg hr, if_neg (List.cons_ne_nil _ _), List.length_cons]
      omega

-- No chunk ends with the bytes before the loop's position.
theorem lt_sum_take_lengths (h : ((lengths cfg data n fp).take k).sum = m) : m = 0 ∨ n < m := by
  induction data generalizing n fp
  case nil =>
    rw [lengths, List.take_nil] at h
    exact .inl h.symm
  case cons byte rest ih =>
    simp only [lengths] at h
    split at h
    case isTrue =>
      cases k
      case zero   => exact .inl h.symm
      case succ k => rw [List.take_succ_cons, List.sum_cons] at h; omega
    case isFalse => exact (ih h).imp id Nat.lt_of_succ_lt

-- After a chunk has ended, the loop does not remember the bytes before.
theorem lengths_append (hA : A ≠ []) (hB : B ≠ [])
    (hk : ((lengths cfg (A ++ B) n fp).take k).sum = n + A.length) :
    lengths cfg (A ++ B) n fp = lengths cfg A n fp ++ lengths cfg B 0 0 := by
  induction A generalizing n fp k
  case nil => exact absurd rfl hA
  case cons byte A ih =>
    have hB' : (A ++ B).isEmpty = false := by
      rw [List.isEmpty_eq_false_iff]
      exact List.append_ne_nil_of_right_ne_nil _ hB
    rw [List.cons_append, List.length_cons] at hk
    rw [List.cons_append]
    simp only [lengths, hB'] at hk ⊢
    by_cases hA' : A = []
    case pos =>
      subst hA'
      split at hk
      case isTrue hc =>
        have hl : cuts cfg (gearUpdate byte fp) (n + 1) true := Bool.or_true _
        rw [List.nil_append, if_pos hc, List.isEmpty_nil, if_pos hl]
        rfl
      case isFalse =>
        have hs := lt_sum_take_lengths hk
        rw [List.length_nil] at hs
        omega
    case neg =>
      rw [List.isEmpty_eq_false_iff.mpr hA']
      split at hk
      case isFalse hc => rw [if_neg hc, if_neg hc, ih hA' (by rw [hk]; omega)]
      case isTrue hc =>
        rw [if_pos hc, if_pos hc, List.cons_append]
        cases k
        case zero   => simp at hk
        case succ k =>
          rw [List.take_succ_cons, List.sum_cons] at hk
          rw [ih hA' (k := k) (by omega)]

-- A chunk that is not cut yet is shorter than the maximal size.
theorem mem_lengths_le (hn : n = 0 ∨ n < cfg.maxSize.toNat) (hm : m ∈ lengths cfg data n fp) :
    m ≤ max 1 cfg.maxSize.toNat := by
  induction data generalizing n fp
  case nil => cases hm
  case cons byte rest ih =>
    simp only [lengths] at hm
    split at hm
    case isTrue =>
      cases List.mem_cons.mp hm
      case inl hm => omega
      case inr hm => exact ih (.inl rfl) hm
    case isFalse hc =>
      simp only [cuts, Bool.or_eq_true, decide_eq_true_eq, not_or] at hc
      exact ih (.inr (by omega)) hm

section Entries

variable {ms ns : List Nat}

theorem entries_append : entries sha256 data start (ns ++ ms) =
    entries sha256 data start ns ++ entries sha256 data (start + ns.sum) ms := by
  induction ns generalizing start
  case nil          => rfl
  case cons n ns hi =>
    rw [List.cons_append, entries, hi, entries, List.sum_cons, Nat.add_assoc, List.cons_append]

theorem entries_left (h : start + ns.sum ≤ A.length) :
    entries sha256 (A ++ B) start ns = entries sha256 A start ns := by
  induction ns generalizing start
  case nil => rfl
  case cons n ns hi =>
    rw [List.sum_cons] at h
    have hs : (A ++ B).slice start n = A.slice start n := by
      rw [List.slice_eq_slice_iff]
      intro k _ hk
      exact List.getElem?_append_left (by omega)
    rw [entries, hi (by omega), hs, entries]

theorem entries_right : entries sha256 (A ++ B) (A.length + start) ns =
    (entries sha256 B start ns).map (·.shift A.length) := by
  induction ns generalizing start
  case nil => rfl
  case cons n ns hi =>
    have hs : (A ++ B).slice (A.length + start) n = B.slice start n := by
      rw [List.slice, List.drop_length_add_append, List.slice]
    have ho : UInt64.ofNat (A.length + start) = .ofNat start + .ofNat A.length := by
      rw [UInt64.ofNat_add, UInt64.add_comm]
    rw [entries, Nat.add_assoc, hi, hs, ho]
    rfl

-- Chunks end where some of the lengths add up to.
theorem stop_of_mem_entries (hn : ∀ n ∈ ns, n < 2 ^ 32) (hs : start + ns.sum < 2 ^ 64)
    (he : e ∈ entries sha256 data start ns) : ∃ k, e.stop = start + (ns.take k).sum := by
  induction ns generalizing start
  case nil => cases he
  case cons n ns hi =>
    have ⟨hn, hns⟩ := List.forall_mem_cons.mp hn
    rw [List.sum_cons] at hs
    cases List.mem_cons.mp he
    case inl he =>
      refine ⟨1, ?_⟩
      have ho : (UInt64.ofNat start).toNat = start :=
        UInt64.toNat_ofNat_of_lt' (by rw [UInt64.size]; omega)
      have hl : (UInt32.ofNat n).toNat = n := UInt32.toNat_ofNat_of_lt' hn
      rw [he, ChunkEntry.stop, ho, hl, List.take_succ_cons, List.take_zero, List.sum_singleton]
    case inr he =>
      obtain ⟨k, hk⟩ := hi hns (by omega) he
      exact ⟨k + 1, by rw [hk, List.take_succ_cons, List.sum_cons, Nat.add_assoc]⟩

end Entries

theorem scanBuffer_append (hB : B ≠ []) (hs : (A ++ B).length < 2 ^ 64)
    (he : ∃ e ∈ scanBuffer sha256 cfg (A ++ B), e.stop = A.length) :
    scanBuffer sha256 cfg (A ++ B) =
      scanBuffer sha256 cfg A ++ (scanBuffer sha256 cfg B).map (·.shift A.length) := by
  obtain ⟨e, he, hd⟩ := he
  by_cases hA : A = []
  case pos =>
    have ⟨hp, _⟩ := (tiles_scanBuffer hs).length_bounds he
    rw [ChunkEntry.stop, hA, List.length_nil] at hd
    omega
  case neg =>
    rw [scanBuffer_eq_entries] at he
    have hm := cfg.maxSize.toNat_lt
    have hn : ∀ n ∈ lengths cfg (A ++ B) 0 0, n < 2 ^ 32 := fun n hn => by
      have := mem_lengths_le (.inl rfl) hn
      omega
    have hl : (lengths cfg A 0 0).sum = A.length := by
      rw [sum_lengths, if_neg hA, Nat.zero_add]
    have hl' : (lengths cfg (A ++ B) 0 0).sum = (A ++ B).length := by
      rw [sum_lengths, if_neg (List.append_ne_nil_of_left_ne_nil hA _), Nat.zero_add]
    obtain ⟨k, hk⟩ := stop_of_mem_entries hn (by omega) he
    rw [hd, Nat.zero_add] at hk
    have ha : _ = _ ++ _ := lengths_append hA hB (hk.symm.trans (Nat.zero_add _).symm)
    rw [scanBuffer_eq_entries, scanBuffer_eq_entries, scanBuffer_eq_entries, ha, entries_append,
      entries_left (by omega), ← entries_right, hl, Nat.add_zero, Nat.zero_add]

theorem chunksFrom_append (hB : B ≠ []) (hs : (A ++ B).length < 2 ^ 64)
    (he : ∃ e ∈ scanBuffer sha256 cfg (A ++ B), e.stop = A.length) :
    chunksFrom A.length (scanBuffer sha256 cfg (A ++ B)) =
      (scanBuffer sha256 cfg B).map fun e => (e.length, e.sha256) := by
  rw [List.length_append] at hs
  have hA : ∀ e ∈ scanBuffer sha256 cfg A, ¬A.length ≤ e.offset.toNat := by
    intro e he
    have ht : Tiles sha256 cfg A 0 _ := tiles_scanBuffer (by omega)
    have := (ht.describes he).fits
    have := (ht.length_bounds he).left
    omega
  have hB' : ∀ e ∈ scanBuffer sha256 cfg B, A.length ≤ (e.shift A.length).offset.toNat := by
    intro e he
    have := ((tiles_scanBuffer (by omega)).describes he).fits
    have hn : (UInt64.ofNat A.length).toNat = A.length :=
      UInt64.toNat_ofNat_of_lt' (by rw [UInt64.size]; omega)
    rw [ChunkEntry.shift, UInt64.toNat_add, hn, Nat.mod_eq_of_lt (by omega)]
    exact Nat.le_add_left ..
  rw [chunksFrom, scanBuffer_append hB (by rwa [List.length_append]) he, List.filter_append]
  rw [List.filter_eq_nil_iff.mpr (by simpa using hA), List.nil_append]
  rw [List.filter_eq_self.mpr (by simpa using hB'), List.map_map]
  rfl

-- The chunks behind a common boundary do not depend on what is in front of it. Buffers have a 64 bit
-- size.
theorem boundaries_follow_content (hB : B ≠ []) :
    (∀ A, (A ++ B).length < 2 ^ 64 → (∃ e ∈ scanBuffer sha256 cfg (A ++ B), e.stop = A.length) →
      scanBuffer sha256 cfg (A ++ B) =
        scanBuffer sha256 cfg A ++ (scanBuffer sha256 cfg B).map (·.shift A.length)) ∧
    (∀ A₁ A₂, (A₁ ++ B).length < 2 ^ 64 → (A₂ ++ B).length < 2 ^ 64 →
      (∃ e ∈ scanBuffer sha256 cfg (A₁ ++ B), e.stop = A₁.length) →
      (∃ e ∈ scanBuffer sha256 cfg (A₂ ++ B), e.stop = A₂.length) →
      chunksFrom A₁.length (scanBuffer sha256 cfg (A₁ ++ B)) =
        chunksFrom A₂.length (scanBuffer sha256 cfg (A₂ ++ B))) := by
  constructor
  · intro A hs he
    exact scanBuffer_append hB hs he
  · intro A₁ A₂ hs₁ hs₂ he₁ he₂
    rw [chunksFrom_append hB hs₁ he₁, chunksFrom_append hB hs₂ he₂]

-- Chunks of two bytes. They are their own digests.
def evenConfig : FastCDCConfig where
  minSize := 2
  maxSize := 2

theorem even_boundaries_follow_content :
    scanBuffer id evenConfig ([1, 2] ++ [7, 8, 9]) =
        scanBuffer id evenConfig [1, 2] ++ (scanBuffer id evenConfig [7, 8, 9]).map (·.shift 2) ∧
      chunksFrom 2 (scanBuffer id evenConfig ([1, 2] ++ [7, 8, 9])) =
        chunksFrom 4 (scanBuffer id evenConfig ([3, 4, 5, 6] ++ [7, 8, 9])) := by
  have hB : [7, 8, 9] ≠ ([] : List UInt8) := List.cons_ne_nil _ _
  constructor
  · exact (boundaries_follow_content hB).left [1, 2] (by decide) (by decide +kernel)
  · exact (boundaries_follow_content hB).right [1, 2] [3, 4, 5, 6] (by decide) (by decide)
      (by decide +kernel) (by decide +kernel)

end FastCDC
end ThinBT
