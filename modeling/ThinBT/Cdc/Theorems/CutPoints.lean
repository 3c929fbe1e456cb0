import ThinBT.Cdc.Theorems.Chunks

namespace ThinBT.FastCDC

-- The length of the first chunk, if there is one.
def firstCut (cfg : FastCDCConfig) (data : List UInt8) : Option Nat :=
  (lengths cfg data 0 0).head?

-- The positions of the data at which the scan starts a chunk, and the end.
inductive CutPoint (cfg : FastCDCConfig) : List UInt8 → Nat → Prop
  | zero {data : List UInt8} : CutPoint cfg data 0
  | add {data : List UInt8} : firstCut cfg data = some n → CutPoint cfg (data.drop n) p →
    CutPoint cfg data (n + p)

variable {δ : Type} {sha256 : List UInt8 → δ} {cfg : FastCDCConfig} {data file A B B' : List UInt8}

-- The scan starts again behind every chunk.
theorem lengths_eq_cons (cfg : FastCDCConfig) (n : Nat) (fp : UInt64) (h : data ≠ []) :
    ∃ m, lengths cfg data n fp = (n + m) :: lengths cfg (data.drop m) 0 0 ∧ 0 < m ∧
      m ≤ data.length := by
  induction data generalizing n fp
  case nil => exact absurd rfl h
  case cons byte rest hi =>
    simp only [lengths]
    split
    case isTrue => exact ⟨1, rfl, Nat.one_pos, Nat.succ_le_succ (Nat.zero_le _)⟩
    case isFalse hc =>
      have hr : rest ≠ [] := fun hr => by simp [hr, cuts] at hc
      obtain ⟨m, hm, _, hl⟩ := hi (n + 1) (gearUpdate byte fp) hr
      refine ⟨m + 1, ?_, Nat.succ_pos m, Nat.succ_le_succ hl⟩
      rw [hm, List.drop_succ_cons, Nat.add_right_comm, Nat.add_assoc]

theorem firstCut_eq_some (h : firstCut cfg data = some n) :
    lengths cfg data 0 0 = n :: lengths cfg (data.drop n) 0 0 ∧ 0 < n ∧ n ≤ data.length := by
  have hd : data ≠ [] := by
    rintro rfl
    cases h
  obtain ⟨m, hm, hp, hl⟩ := lengths_eq_cons cfg 0 0 hd
  rw [firstCut, hm, Nat.zero_add] at h
  obtain rfl := Option.some.inj h
  exact ⟨by rw [hm, Nat.zero_add], hp, hl⟩

namespace CutPoint

theorem trans (h : CutPoint cfg data p) (h' : CutPoint cfg (data.drop p) q) :
    CutPoint cfg data (p + q) := by
  induction h
  case zero => rwa [Nat.zero_add]
  case add hn _ hi =>
    rw [Nat.add_assoc]
    rw [← List.drop_drop] at h'
    exact .add hn (hi h')

-- What lies behind a cut point is scanned by itself.
theorem drop (h : CutPoint cfg data p) (h' : CutPoint cfg data (p + q)) :
    CutPoint cfg (data.drop p) q := by
  induction h
  case zero => rwa [Nat.zero_add] at h'
  case add n p data hn _ hi =>
    have hpos := (firstCut_eq_some hn).right.left
    rw [← List.drop_drop]
    refine hi ?_
    generalize hr : n + p + q = r at h'
    cases h'
    case zero => omega
    case add m r hm h' =>
      obtain rfl : n = m := Option.some.inj (hn.symm.trans hm)
      obtain rfl : p + q = r := by omega
      exact h'

end CutPoint

section Entries

variable {e : ChunkEntry δ}

-- The entries of a scan are the chunks between cut points.
theorem cutPoint_of_mem_entries (hs : start + data.length < 2 ^ 64)
    (he : e ∈ entries sha256 file start (lengths cfg data 0 0)) :
    ∃ p, e.offset.toNat = start + p ∧ CutPoint cfg data p ∧
      firstCut cfg (data.drop p) = some e.length.toNat := by
  induction hn : data.length using Nat.strong_induction_on generalizing data start
  case h n hi =>
    subst hn
    by_cases hd : data = []
    case pos => subst hd; cases he
    case neg =>
      obtain ⟨m, hm, hp, hl⟩ := lengths_eq_cons cfg 0 0 hd
      rw [Nat.zero_add] at hm
      have hc : firstCut cfg data = some m := by rw [firstCut, hm, List.head?_cons]
      rw [hm, entries] at he
      cases List.mem_cons.mp he
      case inl he =>
        have ho : (UInt64.ofNat start).toNat = start :=
          UInt64.toNat_ofNat_of_lt' (by rw [UInt64.size]; omega)
        have hm : (UInt32.ofNat m).toNat = m :=
          UInt32.toNat_ofNat_of_lt' (mem_lengths_lt (hm ▸ List.mem_cons_self))
        exact ⟨0, by rw [he, ho, Nat.add_zero], .zero, by rw [he, List.drop_zero, hc, hm]⟩
      case inr he =>
        have hl' := List.length_drop (i := m) (l := data)
        obtain ⟨p, ho, hp, hf⟩ := hi (data.drop m).length (by omega) (by omega) he rfl
        exact ⟨m + p, by rw [ho, Nat.add_assoc], .add hc hp, by rw [← List.drop_drop, hf]⟩

theorem exists_mem_entries_of_cutPoint (h : CutPoint cfg data p)
    (hs : start + data.length < 2 ^ 64) (hn : firstCut cfg (data.drop p) = some n) :
    ∃ c ∈ entries sha256 file start (lengths cfg data 0 0),
      c.offset.toNat = start + p ∧ c.length.toNat = n := by
  induction h generalizing start
  case zero data =>
    rw [List.drop_zero] at hn
    have hl := (firstCut_eq_some hn).left
    rw [hl, entries]
    refine ⟨_, List.mem_cons_self, ?_, ?_⟩
    · exact UInt64.toNat_ofNat_of_lt' (by rw [UInt64.size]; omega)
    · exact UInt32.toNat_ofNat_of_lt' (mem_lengths_lt (hl ▸ List.mem_cons_self))
  case add m p data hm _ hi =>
    obtain ⟨hl, _, hle⟩ := firstCut_eq_some hm
    rw [← List.drop_drop] at hn
    have hd := List.length_drop (i := m) (l := data)
    have hs' : start + m + (data.drop m).length < 2 ^ 64 := by omega
    obtain ⟨c, hc, ho, hn⟩ := hi hs' hn
    rw [hl, entries]
    exact ⟨c, List.mem_cons_of_mem _ hc, by rw [ho, Nat.add_assoc], hn⟩

-- The scan has a chunk at a place exactly if the place starts at a cut point and the next one is its
-- end.
theorem exists_mem_scanBuffer_iff (hs : data.length < 2 ^ 64) :
    (∃ c ∈ scanBuffer sha256 cfg data, c.offset = e.offset ∧ c.length = e.length) ↔
      CutPoint cfg data e.offset.toNat ∧
        firstCut cfg (data.drop e.offset.toNat) = some e.length.toNat := by
  rw [scanBuffer_eq_entries]
  constructor
  · rintro ⟨c, hc, ho, hl⟩
    obtain ⟨p, hp, hcut, hf⟩ := cutPoint_of_mem_entries (by omega) hc
    rw [Nat.zero_add] at hp
    rw [← ho, ← hl, hp]
    exact ⟨hcut, hf⟩
  · rintro ⟨hcut, hf⟩
    obtain ⟨c, hc, ho, hl⟩ : ∃ c ∈ entries sha256 data 0 (lengths cfg data 0 0), _ :=
      exists_mem_entries_of_cutPoint hcut (by omega) hf
    rw [Nat.zero_add] at ho
    exact ⟨c, hc, UInt64.toNat_inj.mp ho, UInt32.toNat_inj.mp hl⟩

end Entries

theorem lt_of_head?_lengths (h : (lengths cfg data n fp).head? = some m) : n < m := by
  have hd : data ≠ [] := by
    rintro rfl
    cases h
  obtain ⟨k, hk, hp, _⟩ := lengths_eq_cons cfg n fp hd
  rw [hk, List.head?_cons] at h
  have := Option.some.inj h
  omega

-- Where the first chunk ends depends on its own bytes and on whether more bytes follow.
theorem head?_lengths_append (hB : B = [] ↔ B' = []) (hA : A ≠ [])
    (h : (lengths cfg (A ++ B) n fp).head? = some (n + A.length)) :
    (lengths cfg (A ++ B') n fp).head? = some (n + A.length) := by
  induction A generalizing n fp
  case nil => exact absurd rfl hA
  case cons byte A hi =>
    have he : (A ++ B).isEmpty = (A ++ B').isEmpty := by
      rw [Bool.eq_iff_iff, List.isEmpty_iff, List.isEmpty_iff, List.append_eq_nil_iff,
        List.append_eq_nil_iff, hB]
    simp only [List.cons_append, lengths, ← he] at h ⊢
    split at h
    case isTrue hc => rw [if_pos hc]; exact h
    case isFalse hc =>
      rw [if_neg hc]
      rw [List.length_cons, Nat.add_comm A.length, ← Nat.add_assoc] at h ⊢
      refine hi (fun hA => ?_) h
      have := lt_of_head?_lengths h
      rw [hA, List.length_nil] at this
      omega

theorem firstCut_append (hB : B = [] ↔ B' = []) (h : firstCut cfg (A ++ B) = some A.length) :
    firstCut cfg (A ++ B') = some A.length := by
  have hA : A ≠ [] := by
    rintro rfl
    exact absurd (firstCut_eq_some h).right.left (Nat.lt_irrefl 0)
  have hh := head?_lengths_append (n := 0) hB hA (by rwa [Nat.zero_add])
  rwa [Nat.zero_add] at hh

end ThinBT.FastCDC
