import ThinBT.Util.Supply
import ThinBT.Cdc.Theorems.Chunks
import ThinBT.Task.Theorems.Downloads

namespace ThinBT

namespace FastCDC

theorem entries_fit {e : ChunkEntry δ} (he : e ∈ entries sha256 data start ns) :
    e.offset.toNat + e.length.toNat ≤ start + ns.sum := by
  induction ns generalizing start
  case nil => cases he
  case cons n ns hi =>
    rw [List.sum_cons]
    rw [entries] at he
    cases List.mem_cons.mp he
    case inl he =>
      subst he
      have ho : (UInt64.ofNat start).toNat ≤ start := UInt64.toNat_ofNat' ▸ Nat.mod_le ..
      have hl : (UInt32.ofNat n).toNat ≤ n := UInt32.toNat_ofNat' ▸ Nat.mod_le ..
      change (UInt64.ofNat start).toNat + (UInt32.ofNat n).toNat ≤ _
      omega
    case inr he =>
      have := hi he
      omega

-- The chunks of a buffer lie in it, whatever its size is.
theorem scanBuffer_fits {e : ChunkEntry δ} (he : e ∈ scanBuffer sha256 cfg data) :
    e.offset.toNat + e.length.toNat ≤ data.length := by
  rw [scanBuffer_eq_entries] at he
  have hs : (lengths cfg data 0 0).sum ≤ data.length := by
    rw [sum_lengths]
    split <;> omega
  have := entries_fit he
  omega

end FastCDC

-- What the loop of `cmd_update` compares.
def ChunkEntry.key (e : ChunkEntry δ) : δ × UInt32 :=
  (e.sha256, e.length)

namespace Task

-- The loop has reused every chunk that occurs in the old file.
structure ReusesAll [DecidableEq δ] (seed : TSeedFile δ) (old : List (ChunkEntry δ)) (r : Reuse δ) :
    Prop where
  initBf       : ∀ {i : Nat} {e}, seed.chunks[i]? = some e → e.key ∈ old.map (·.key) →
    r.initBf[i]? = some true
  matched      : r.matched.toNat = seed.chunks.countP (·.key ∈ old.map (·.key))
  matchedBytes : r.matchedBytes.toNat =
    ((seed.chunks.filter (·.key ∈ old.map (·.key))).map (·.length.toNat)).sum

variable {δ : Type} {sha256 : List UInt8 → δ} {oldPath newPath : String}
variable {s : Reuse δ} {x : ChunkEntry δ × Nat} {es : List (ChunkEntry δ)}

-- The number of candidates that are left for a digest and a length.
def supply (s : Reuse δ) (k : δ × UInt32) : Nat :=
  (s.oldChunkIndex k.1).countP (·.2 = k.2)

-- Every candidate lies in the old file.
def Stocked (oldPath : String) (s : Reuse δ) : Prop :=
  ∀ key, ∀ cand ∈ s.oldChunkIndex key, ∃ old, s.files oldPath = some old ∧
    cand.1.toNat + cand.2.toNat ≤ old.length

-- If every copy succeeds, there is one exactly if a candidate is left.
theorem isSome_cloned (h : Stocked oldPath s) :
    (cloned oldPath (fun _ _ => true) s x).isSome = decide (0 < supply s x.1.key) := by
  rw [Bool.eq_iff_iff, decide_eq_true_eq, supply, List.countP_pos_iff]
  constructor
  · intro hs
    obtain ⟨⟨old, cand⟩, hc⟩ := Option.isSome_iff_exists.mp hs
    obtain ⟨_, hm, hl, _⟩ := cloned_eq_some hc
    exact ⟨cand, hm, decide_eq_true hl⟩
  · rintro ⟨cand, hm, hl⟩
    obtain ⟨old, ho, hf⟩ := h _ _ hm
    have hl := of_decide_eq_true hl
    have hs : ((s.oldChunkIndex x.1.sha256).find? (clonable (fun _ => true) old x.1.length)).isSome := by
      refine List.find?_isSome.mpr ⟨cand, hm, ?_⟩
      rw [hl] at hf
      simp only [clonable, Bool.and_true, Bool.and_eq_true, decide_eq_true_eq]
      exact ⟨hl, hf⟩
    obtain ⟨y, hy⟩ := Option.isSome_iff_exists.mp hs
    simp [cloned, ho, hy]

theorem count_true_map {p : ChunkEntry δ → Bool} : (es.map p).count true = es.countP p := by
  rw [List.count, List.countP_map]
  exact List.countP_congr fun e _ => by simp

-- So many chunks have a total size of 64 bits.
theorem sum_length_lt (h : es.length < 2 ^ 32) : (es.map (·.length.toNat)).sum < 2 ^ 64 := by
  have hs : (es.map (·.length.toNat)).sum ≤ es.length * 2 ^ 32 := by
    clear h
    induction es
    case nil => simp
    case cons e es hi =>
      have := e.length.toNat_lt
      rw [List.map_cons, List.sum_cons, List.length_cons, Nat.succ_mul]
      omega
  omega

section Loop

variable [DecidableEq δ]

theorem supply_of_cloned (h : cloned oldPath clones s x = some y) :
    supply (reuseChunk oldPath newPath clones s x) =
      Function.update (supply s) x.1.key (supply s x.1.key - 1) := by
  obtain ⟨old, cand⟩ := y
  obtain ⟨_, hm, hl, _⟩ := cloned_eq_some h
  funext k
  rw [reuseChunk, h, supply]
  change List.countP _ (Function.update s.oldChunkIndex x.1.sha256 _ k.1) = _
  by_cases hk : k.1 = x.1.sha256
  case neg =>
    rw [Function.update_of_ne hk, Function.update_of_ne fun he => hk (congrArg Prod.fst he), supply]
  case pos =>
    rw [hk, Function.update_self, List.countP_erase]
    by_cases hk' : k.2 = x.1.length
    case pos =>
      obtain rfl : k = x.1.key := Prod.ext hk hk'
      rw [if_pos ⟨hm, decide_eq_true hl⟩, Function.update_self, supply, ChunkEntry.key]
    case neg =>
      have hn : k ≠ x.1.key := fun he => hk' (congrArg Prod.snd he)
      have hc : ¬(cand ∈ s.oldChunkIndex x.1.sha256 ∧ decide (cand.2 = k.2) = true) :=
        fun hc => hk' ((of_decide_eq_true hc.right).symm.trans hl)
      rw [if_neg hc, Function.update_of_ne hn, supply, hk, Nat.sub_zero]

-- A copy uses its candidate up.
theorem supply_reuseChunk (h : Stocked oldPath s) :
    supply (reuseChunk oldPath newPath (fun _ _ => true) s x) =
      Function.update (supply s) x.1.key (supply s x.1.key - 1) := by
  have hi : (cloned oldPath (fun _ _ => true) s x).isSome = _ := isSome_cloned h
  cases hc : cloned oldPath (fun _ _ => true) s x
  case some y => exact supply_of_cloned hc
  case none =>
    rw [hc, Option.isSome_none, eq_comm, decide_eq_false_iff_not] at hi
    have hz := Nat.eq_zero_of_not_pos hi
    rw [reuseChunk_of_none hc, hz, Nat.zero_sub, ← hz, Function.update_eq_self]

theorem Stocked.reuseChunk (h : Stocked oldPath s) (hn : oldPath ≠ newPath) :
    Stocked oldPath (reuseChunk oldPath newPath clones s x) := by
  cases hc : cloned oldPath clones s x
  case none => rwa [reuseChunk_of_none hc]
  case some y =>
    have hs : Clones newPath s x _ (Task.reuseChunk oldPath newPath clones s x) :=
      reuseChunk_of_some hc
    intro key cand hm
    rw [hs.other _ hn]
    exact h key cand (hs.index key hm)

variable (newPath x) in
-- What one step of the loop does to the bitfield and to the counter.
theorem reuseChunk_served (h : Stocked oldPath s) {bf : List Bool}
    (hb : s.initBf = pre ++ false :: bf) (hx : x.2 = pre.length) :
    (reuseChunk oldPath newPath (fun _ _ => true) s x).initBf =
        pre ++ decide (0 < supply s x.1.key) :: bf ∧
      (reuseChunk oldPath newPath (fun _ _ => true) s x).matched =
        s.matched + .ofNat (decide (0 < supply s x.1.key)).toNat := by
  rw [← isSome_cloned h]
  cases hc : cloned oldPath (fun _ _ => true) s x
  case none =>
    rw [reuseChunk_of_none hc]
    exact ⟨hb, (UInt32.add_zero _).symm⟩
  case some y =>
    have hs : Clones newPath s x _ (reuseChunk oldPath newPath (fun _ _ => true) s x) :=
      reuseChunk_of_some hc
    rw [hs.initBf, hs.matched, hb, hx]
    refine ⟨?_, rfl⟩
    rw [List.set_append_right _ _ (Nat.le_refl _), Nat.sub_self]
    rfl

-- The loop serves the chunks from the candidates, in their order.
theorem exec_reuseChunk_served (h : Stocked oldPath s) (hn : oldPath ≠ newPath)
    (hb : s.initBf = pre ++ es.map fun _ => false) :
    (Actions.exec (reuseChunk oldPath newPath fun _ _ => true) s (es.zipIdx pre.length)).initBf =
        pre ++ List.served (supply s) (es.map (·.key)) ∧
      (Actions.exec (reuseChunk oldPath newPath fun _ _ => true) s (es.zipIdx pre.length)).matched =
        s.matched + .ofNat ((List.served (supply s) (es.map (·.key))).count true) := by
  induction es generalizing s pre
  case nil => exact ⟨hb, (UInt32.add_zero _).symm⟩
  case cons e es hi =>
    obtain ⟨h₁, h₂⟩ := reuseChunk_served newPath (e, pre.length) h hb rfl
    have hp : pre.length + 1 = (pre ++ [decide (0 < supply s e.key)]).length := by simp
    rw [List.append_cons] at h₁
    obtain ⟨h₃, h₄⟩ := hi (h.reuseChunk hn) h₁
    rw [List.zipIdx_cons, Actions.exec_cons, hp, h₃, h₄, h₂, supply_reuseChunk h, List.map_cons,
      List.served, List.count_cons]
    refine ⟨List.append_assoc .., ?_⟩
    rw [UInt32.add_assoc, ← UInt32.ofNat_add]
    cases decide (0 < supply s e.key) <;> simp [Nat.add_comm]

variable {seed : TSeedFile δ} {oldSeed : Option (TSeedFile δ)} {files : Files}

theorem stocked_reuseStart (hn : oldPath ≠ newPath) :
    Stocked oldPath (reuseStart sha256 seed newPath oldSeed oldPath files) := by
  intro key cand hm
  obtain ⟨c, hc, rfl⟩ := List.mem_map.mp hm
  have ⟨hc, _⟩ := List.mem_filter.mp hc
  rw [FastCDC.scanFile] at hc
  cases ho : files oldPath
  case none =>
    rw [ho] at hc
    cases hc
  case some old =>
    rw [ho] at hc
    exact ⟨old, (Function.update_of_ne hn ..).trans ho, FastCDC.scanBuffer_fits hc⟩

theorem supply_reuseStart : supply (reuseStart sha256 seed newPath oldSeed oldPath files) =
    fun k => (FastCDC.scanFile sha256 (oldSeed.elim {} (·.config)) files oldPath).countP (·.key = k) := by
  funext k
  change List.countP _ (oldIndexOf _ k.1) = _
  rw [oldIndexOf, List.countP_map, List.countP_filter]
  refine List.countP_congr fun c _ => ?_
  simp [ChunkEntry.key, Prod.ext_iff, and_comm]

-- The bitfield that the loop leaves.
def servedBf (seed : TSeedFile δ) (old : List (ChunkEntry δ)) : List Bool :=
  List.served (fun k => old.countP (·.key = k)) (seed.chunks.map (·.key))

variable (sha256 seed oldSeed files) in
theorem reuse_served (hn : oldPath ≠ newPath) (ho : oldPath ≠ "") :
    (reuse sha256 seed newPath oldSeed oldPath files fun _ _ => true).initBf =
        servedBf seed (FastCDC.scanFile sha256 (oldSeed.elim {} (·.config)) files oldPath) ∧
      (reuse sha256 seed newPath oldSeed oldPath files fun _ _ => true).matched =
        .ofNat ((servedBf seed
          (FastCDC.scanFile sha256 (oldSeed.elim {} (·.config)) files oldPath)).count true) := by
  have hs : Stocked oldPath (reuseStart sha256 seed newPath oldSeed oldPath files) :=
    stocked_reuseStart hn
  have hb : (reuseStart sha256 seed newPath oldSeed oldPath files).initBf =
    [] ++ seed.chunks.map fun _ => false := rfl
  have h := exec_reuseChunk_served hs hn hb
  rw [supply_reuseStart] at h
  rw [reuse, reuseChunks, if_neg ho]
  exact ⟨h.left, h.right.trans (UInt32.zero_add _)⟩

theorem mem_map_key_iff {old : List (ChunkEntry δ)} {k : δ × UInt32} :
    k ∈ old.map (·.key) ↔ 0 < old.countP (·.key = k) := by
  simp [List.countP_pos_iff]

-- The bitfield has every chunk that occurs in the old file exactly if none of them occurs more often
-- in the seed.
theorem servedBf_eq_iff {old : List (ChunkEntry δ)} :
    servedBf seed old = seed.chunks.map (fun e => decide (e.key ∈ old.map (·.key))) ↔
      ∀ e ∈ seed.chunks, e.key ∈ old.map (·.key) →
        seed.chunks.countP (·.key = e.key) ≤ old.countP (·.key = e.key) := by
  have h : servedBf seed old = _ ↔ _ := List.served_eq_iff
  rw [List.map_map, List.forall_mem_map] at h
  simp only [mem_map_key_iff]
  refine h.trans ?_
  simp only [List.count, List.countP_map]
  rfl

-- If every copy succeeds, `cmd_update` reuses every chunk that occurs in the old file exactly if none
-- of them occurs more often in the new seed than in the old file, since each chunk of the old file is
-- copied once.
theorem reuse_complete_iff (hn : oldPath ≠ newPath) (ho : oldPath ≠ "")
    (hold : FastCDC.scanFile sha256 (oldSeed.elim {} (·.config)) files oldPath = old) :
    ReusesAll seed old (reuse sha256 seed newPath oldSeed oldPath files fun _ _ => true) ↔
      ∀ e ∈ seed.chunks, e.key ∈ old.map (·.key) →
        seed.chunks.countP (·.key = e.key) ≤ old.countP (·.key = e.key) := by
  obtain ⟨hb, hm⟩ := reuse_served sha256 seed oldSeed files hn ho
  have ht : Tallied seed 0 (reuse sha256 seed newPath oldSeed oldPath files fun _ _ => true) :=
    tallied_reuse
  rw [hold] at hb hm
  rw [← servedBf_eq_iff]
  constructor
  · intro h
    refine List.ext_getElem? fun i => ?_
    rw [List.getElem?_map, servedBf, List.getElem?_served, List.getElem?_map]
    cases he : seed.chunks[i]?
    case none => rfl
    case some e =>
      rw [Option.map_some, Option.map_some, Option.map_some, Option.some.injEq, Bool.eq_iff_iff,
        decide_eq_true_eq, decide_eq_true_eq, mem_map_key_iff]
      refine ⟨Nat.zero_lt_of_lt, fun hk => ?_⟩
      have hi := h.initBf he (mem_map_key_iff.mpr hk)
      rw [hb, servedBf, List.getElem?_served, List.getElem?_map, he] at hi
      exact of_decide_eq_true (Option.some.inj hi)
  · intro h
    rw [h] at hb hm
    refine ⟨fun {i e} he hk => ?_, ?_, ?_⟩
    · rw [hb, List.getElem?_map, he, Option.map_some, decide_eq_true hk]
    · rw [hm, count_true_map, UInt32.toNat_ofNat_of_lt']
      exact List.countP_le_length.trans_lt seed.countLt
    · have hl : (seed.chunks.filter (·.key ∈ old.map (·.key))).length < 2 ^ 32 :=
        (List.length_filter_le ..).trans_lt seed.countLt
      rw [ht.matchedBytes, hb, TSeedFile.bytesIn_getD, ← List.map_prod_left_eq_zip, List.filter_map,
        List.map_map]
      exact UInt64.toNat_ofNat_of_lt' (sum_length_lt hl)

end Loop

-- Every chunk of the new seed has its own source.
theorem swap_reuses_all :
    ReusesAll swapSeed (FastCDC.scanFile id swapSeed.config swapFiles "old")
      (reuse id swapSeed "new" (some swapSeed) "old" swapFiles fun _ _ => true) := by
  have hn : "old" ≠ "new" := by decide
  have ho : "old" ≠ "" := by decide
  have hs : FastCDC.scanFile id ((some swapSeed).elim {} (·.config)) swapFiles "old" =
    FastCDC.scanFile id swapSeed.config swapFiles "old" := rfl
  exact (reuse_complete_iff hn ho hs).mpr (by decide +kernel)

-- The new file has the block of the old file twice.
def doubledSeed : TSeedFile (List UInt8) where
  fileSize := 4
  config   := { minSize := 2, maxSize := 2 }
  chunks   := [⟨0, 2, [1, 2]⟩, ⟨2, 2, [1, 2]⟩]
  countLt  := by decide

def singleFile : Files :=
  Function.update (fun _ => none) "old" (some [1, 2])

-- The second chunk is not reused, although it occurs in the old file.
theorem doubled_block_reused_once :
    (FastCDC.scanFile id swapSeed.config singleFile "old").map (·.key) = [([1, 2], 2)] ∧
    (reuse id doubledSeed "new" (some swapSeed) "old" singleFile fun _ _ => true).initBf =
      [true, false] ∧
    ¬ReusesAll doubledSeed (FastCDC.scanFile id swapSeed.config singleFile "old")
      (reuse id doubledSeed "new" (some swapSeed) "old" singleFile fun _ _ => true) := by
  refine ⟨by decide +kernel, by decide +kernel, fun h => ?_⟩
  have hi := h.initBf (i := 1) rfl (by decide +kernel)
  revert hi
  decide +kernel

end Task
end ThinBT
