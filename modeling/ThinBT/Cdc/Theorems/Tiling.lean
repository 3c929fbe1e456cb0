import ThinBT.Cdc.FastCDC

namespace ThinBT

namespace FastCDC.Tiles

variable {δ : Type} {sha256 : List UInt8 → δ} {cfg : FastCDCConfig} {data : List UInt8}
variable {es : List (ChunkEntry δ)}

theorem start_le (h : Tiles sha256 cfg data start es) (he : e ∈ es) : start ≤ e.offset.toNat := by
  induction h
  case nil => cases he
  case cons ho _ _ _ _ hi =>
    cases List.mem_cons.mp he
    case inl he => rw [he, ho]
    case inr he => exact Nat.le_trans (Nat.le_add_right _ _) (hi he)

theorem pairwise (h : Tiles sha256 cfg data start es) : es.Pairwise ChunkEntry.Disjoint := by
  induction h
  case nil => exact .nil
  case cons ho _ _ _ ht hi => exact .cons (fun f hf => .inl (ho ▸ ht.start_le hf)) hi

theorem covers (h : Tiles sha256 cfg data start es) (hs : start ≤ p) (hp : p < data.length) :
    ∃ e ∈ es, e.offset.toNat ≤ p ∧ p < e.offset.toNat + e.length.toNat := by
  induction h
  case nil => exact absurd hp (Nat.not_lt.mpr hs)
  case cons _ _ e ho _ _ _ _ hi =>
    by_cases hlt : p < e.offset.toNat + e.length.toNat
    case pos => exact ⟨e, List.mem_cons_self, ho ▸ hs, hlt⟩
    case neg =>
      obtain ⟨f, hf, hp⟩ := hi (ho ▸ Nat.le_of_not_lt hlt)
      exact ⟨f, List.mem_cons_of_mem _ hf, hp⟩

end FastCDC.Tiles

namespace TSeedFile

variable {δ : Type} {sha256 : List UInt8 → δ} {source file : List UInt8} {seed : TSeedFile δ}

theorem SeedOf.partitioned (h : seed.SeedOf sha256 source) : seed.Partitioned where
  positive _ he := (h.tiles.length_bounds he).left
  inside   _ he := h.fileSize ▸ (h.tiles.describes he).fits
  disjoint := h.tiles.pairwise
  covers   p hp := h.tiles.covers (Nat.zero_le p) (h.fileSize ▸ hp)

-- A file of the right size that has the bytes of all chunks is the source.
theorem SeedOf.file_eq (h : seed.SeedOf sha256 source) (hl : file.length = source.length)
    (hc : ∀ e ∈ seed.chunks, e.bytes file = e.bytes source) : file = source := by
  refine List.ext_getElem? fun p => ?_
  by_cases hp : p < source.length
  case pos =>
    obtain ⟨e, he, ho, hlt⟩ := h.tiles.covers (Nat.zero_le p) hp
    exact List.slice_eq_slice_iff.mp (hc e he) p ho hlt
  case neg =>
    have hp := Nat.le_of_not_lt hp
    rw [List.getElem?_eq_none hp, List.getElem?_eq_none (hl ▸ hp)]

end TSeedFile
end ThinBT
