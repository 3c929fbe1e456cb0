import ThinBT.Cdc.Theorems.Locality

namespace ThinBT.FastCDC

variable {δ : Type} {sha256 : List UInt8 → δ} {cfg : FastCDCConfig} {data : List UInt8}

section Tiles

variable {es : List (ChunkEntry δ)}

-- A chunk starts where the chunks before it end.
theorem Tiles.offset (h : Tiles sha256 cfg data start es) (he : es[k]? = some e) :
    e.offset.toNat = start + ((es.take k).map (·.length.toNat)).sum := by
  induction h generalizing k
  case nil => cases he
  case cons ho _ _ _ _ hi =>
    cases k
    case zero   => exact (Option.some.inj he) ▸ ho
    case succ k => rw [hi he, List.take_succ_cons, List.map_cons, List.sum_cons, Nat.add_assoc]

theorem Tiles.sum (h : Tiles sha256 cfg data start es) :
    start + (es.map (·.length.toNat)).sum = data.length := by
  induction h
  case nil          => rfl
  case cons _ _ _ _ _ hi => rw [List.map_cons, List.sum_cons, ← Nat.add_assoc, hi]

end Tiles

theorem mem_lengths_lt (hm : m ∈ lengths cfg data 0 0) : m < 2 ^ 32 := by
  have := cfg.maxSize.toNat_lt
  have := mem_lengths_le (.inl rfl) hm
  omega

theorem map_length_entries {ns : List Nat} (h : ∀ n ∈ ns, n < 2 ^ 32) :
    (entries sha256 data start ns).map (·.length.toNat) = ns := by
  induction ns generalizing start
  case nil => rfl
  case cons n ns hi =>
    obtain ⟨hn, hns⟩ := List.forall_mem_cons.mp h
    rw [entries, List.map_cons, hi hns, UInt32.toNat_ofNat_of_lt' hn]

theorem map_length_scanBuffer (sha256 : List UInt8 → δ) :
    (scanBuffer sha256 cfg data).map (·.length.toNat) = lengths cfg data 0 0 := by
  rw [scanBuffer_eq_entries]
  exact map_length_entries fun _ => mem_lengths_lt

-- Only the last chunk may be cut by the end of the data.
theorem cuts_of_mem_dropLast (hm : m ∈ (lengths cfg data n fp).dropLast) :
    ∃ byte fp, cuts cfg (gearUpdate byte fp) m false := by
  induction data generalizing n fp
  case nil => cases hm
  case cons byte rest ih =>
    simp only [lengths] at hm
    split at hm
    case isFalse   => exact ih hm
    case isTrue hc =>
      cases rest
      case nil => cases hm
      case cons b bs =>
        have hne : lengths cfg (b :: bs) 0 0 ≠ [] := by
          intro hn
          have hs : (lengths cfg (b :: bs) 0 0).sum = 0 + (b :: bs).length := sum_lengths
          rw [hn, List.length_cons, List.sum_nil] at hs
          omega
        rw [List.dropLast_cons_of_ne_nil hne] at hm
        cases List.mem_cons.mp hm
        case inl hm => exact ⟨byte, fp, hm ▸ hc⟩
        case inr hm => exact ih hm

theorem length_mem_dropLast (he : (scanBuffer sha256 cfg data)[k]? = some e)
    (hk : k + 1 < (scanBuffer sha256 cfg data).length) :
    e.length.toNat ∈ (lengths cfg data 0 0).dropLast := by
  have hl : (lengths cfg data 0 0)[k]? = some e.length.toNat := by
    rw [← map_length_scanBuffer sha256, List.getElem?_map, he, Option.map_some]
  have hn : (scanBuffer sha256 cfg data).length = (lengths cfg data 0 0).length := by
    rw [← map_length_scanBuffer sha256, List.length_map]
  refine List.mem_of_getElem? (i := k) ?_
  rw [List.getElem?_dropLast, if_pos (by omega), hl]

-- The chunks of a buffer are consecutive and of the configured sizes. Buffers have a 64 bit size.
theorem scan_partitions (hs : data.length < 2 ^ 64) (h1 : 1 ≤ cfg.minSize.toNat)
    (h2 : cfg.minSize.toNat ≤ cfg.maxSize.toNat) :
    (data = [] → scanBuffer sha256 cfg data = []) ∧
      ((scanBuffer sha256 cfg data).map (·.length.toNat)).sum = data.length ∧
      ∀ k e, (scanBuffer sha256 cfg data)[k]? = some e →
        e.offset.toNat = (((scanBuffer sha256 cfg data).take k).map (·.length.toNat)).sum ∧
        0 < e.length.toNat ∧ e.length.toNat ≤ cfg.maxSize.toNat ∧
        (k + 1 < (scanBuffer sha256 cfg data).length → cfg.minSize.toNat ≤ e.length.toNat) ∧
        e.sha256 = sha256 (data.slice e.offset.toNat e.length.toNat) := by
  have ht : Tiles sha256 cfg data 0 (scanBuffer sha256 cfg data) := tiles_scanBuffer hs
  refine ⟨?_, (Nat.zero_add _).symm.trans ht.sum, fun k e he => ?_⟩
  · rintro rfl
    rfl
  · obtain ⟨hp, hm⟩ := ht.length_bounds (List.mem_of_getElem? he)
    refine ⟨(ht.offset he).trans (Nat.zero_add _), hp, by omega, fun hk => ?_, ?_⟩
    · obtain ⟨byte, fp, hc⟩ := cuts_of_mem_dropLast (length_mem_dropLast he hk)
      simp only [cuts, Bool.or_false, Bool.or_eq_true, Bool.and_eq_true, decide_eq_true_eq] at hc
      omega
    · exact (ht.describes (List.mem_of_getElem? he)).hash

theorem even_scan_partitions :
    ((scanBuffer id evenConfig [1, 2, 3, 4, 5]).map (·.length.toNat)).sum = 5 ∧
      ∀ k e, (scanBuffer id evenConfig [1, 2, 3, 4, 5])[k]? = some e →
        e.offset.toNat =
            (((scanBuffer id evenConfig [1, 2, 3, 4, 5]).take k).map (·.length.toNat)).sum ∧
          0 < e.length.toNat ∧ e.length.toNat ≤ 2 ∧
          (k + 1 < (scanBuffer id evenConfig [1, 2, 3, 4, 5]).length → 2 ≤ e.length.toNat) ∧
          e.sha256 = [1, 2, 3, 4, 5].slice e.offset.toNat e.length.toNat :=
  (scan_partitions (by decide) (by decide) (by decide)).right

end ThinBT.FastCDC
