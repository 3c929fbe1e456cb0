import ThinBT.Task.Update
import ThinBT.Util.Actions

namespace ThinBT

theorem ChunkEntry.bytes_overwrite_of_disjoint {e f : ChunkEntry δ} (h : e.Disjoint f)
    (hd : d.length = f.length.toNat) :
    e.bytes (file.overwrite f.offset.toNat d) = e.bytes file := by
  rw [bytes, bytes, List.slice_eq_slice_iff]
  intro k hk hk'
  refine List.getElem?_overwrite_of_not_mem ?_
  cases h <;> omega

-- The content of a file, which is empty if there is none.
def Reuse.content (s : Reuse δ) (path : String) : List UInt8 :=
  (s.files path).getD []

namespace Task

section Definitions

variable {δ : Type} [DecidableEq δ]

-- The bytes that are cloned for the chunk still have its digest.
def SourceIntact (sha256 : List UInt8 → δ) (oldPath : String) (clones : Nat → UInt64 → Bool)
    (s : Reuse δ) (x : ChunkEntry δ × Nat) : Prop :=
  ∀ y ∈ cloned oldPath clones s x, sha256 (y.1.slice y.2.1.toNat x.1.length.toNat) = x.1.sha256

instance {sha256 : List UInt8 → δ} {s : Reuse δ} : Decidable (SourceIntact sha256 oldPath clones s x) :=
  inferInstanceAs (Decidable (∀ y ∈ cloned oldPath clones s x,
    sha256 (y.1.slice y.2.1.toNat x.1.length.toNat) = x.1.sha256))

-- The bytes that are cloned for the chunk have its digest. Where they meet a chunk that is claimed,
-- they are the bytes that the new file has there.
def KeepsClaims (sha256 : List UInt8 → δ) (seed : TSeedFile δ) (oldPath newPath : String)
    (clones : Nat → UInt64 → Bool) (s : Reuse δ) (x : ChunkEntry δ × Nat) : Prop :=
  ∀ y ∈ cloned oldPath clones s x,
    sha256 (y.1.slice y.2.1.toNat x.1.length.toNat) = x.1.sha256 ∧
    ∀ c < seed.chunks.length, s.initBf[c]? = some true → ∀ e ∈ seed.chunks[c]?,
      (s.content newPath).MatchesOn x.1.offset.toNat (y.1.slice y.2.1.toNat x.1.length.toNat)
        e.offset.toNat (e.offset.toNat + e.length.toNat)

instance {sha256 : List UInt8 → δ} {seed : TSeedFile δ} {s : Reuse δ} :
    Decidable (KeepsClaims sha256 seed oldPath newPath clones s x) :=
  inferInstanceAs (Decidable (∀ y ∈ cloned oldPath clones s x,
    sha256 (y.1.slice y.2.1.toNat x.1.length.toNat) = x.1.sha256 ∧
    ∀ c < seed.chunks.length, s.initBf[c]? = some true → ∀ e ∈ seed.chunks[c]?,
      (s.content newPath).MatchesOn x.1.offset.toNat (y.1.slice y.2.1.toNat x.1.length.toNat)
        e.offset.toNat (e.offset.toNat + e.length.toNat)))

-- The file has every chunk that the initial bitfield claims.
def HasClaimed (sha256 : List UInt8 → δ) (τ : Task δ) : Prop :=
  ∀ {c : Nat} {e}, τ.initialBitfield[c]? = some true → τ.seed.chunks[c]? = some e →
    sha256 (e.bytes τ.file) = e.sha256

end Definitions

variable {δ : Type} {oldPath newPath : String} {clones : Nat → UInt64 → Bool} {s : Reuse δ}
variable {x : ChunkEntry δ × Nat} {xs : List (ChunkEntry δ × Nat)}

-- The candidate that is cloned is one for the chunk's digest, and all its bytes are there.
theorem cloned_eq_some (h : cloned oldPath clones s x = some (old, cand)) :
    s.files oldPath = some old ∧ cand ∈ s.oldChunkIndex x.1.sha256 ∧ cand.2 = x.1.length ∧
      cand.1.toNat + x.1.length.toNat ≤ old.length := by
  simp only [cloned, Option.bind_eq_bind, Option.bind_eq_some_iff] at h
  obtain ⟨old', ho, cand', hc, he⟩ := h
  cases he
  have hm := List.mem_of_find?_eq_some hc
  have hf := List.find?_some hc
  simp only [clonable, Bool.and_eq_true, decide_eq_true_eq] at hf
  exact ⟨ho, hm, hf.left.left, hf.right⟩

theorem mem_reuseChunks {seed : TSeedFile δ} (h : x ∈ reuseChunks seed oldPath) :
    seed.chunks[x.2]? = some x.1 := by
  unfold reuseChunks at h
  split at h
  case isTrue  => cases h
  case isFalse => exact List.mem_zipIdx_iff_getElem?.mp h

theorem pairwise_reuseChunks {seed : TSeedFile δ} (h : seed.Partitioned) :
    (reuseChunks seed oldPath).Pairwise fun x y => x.1.Disjoint y.1 ∧ y.2 ≠ x.2 := by
  unfold reuseChunks
  split
  case isTrue => exact .nil
  case isFalse =>
    rw [List.pairwise_iff_getElem]
    intro i j hi hj hij
    rw [List.length_zipIdx] at hi hj
    simp only [List.getElem_zipIdx, Nat.zero_add]
    exact ⟨List.pairwise_iff_getElem.mp h.disjoint i j hi hj hij, Nat.ne_of_gt hij⟩

section Loop

variable [DecidableEq δ] {sha256 : List UInt8 → δ}

theorem reuseChunk_of_none (h : cloned oldPath clones s x = none) :
    reuseChunk oldPath newPath clones s x = s := by
  rw [reuseChunk, h]

-- What cloning a candidate does to the new file and to the bitfield.
structure Clones (newPath : String) (s : Reuse δ) (x : ChunkEntry δ × Nat) (data : List UInt8)
    (s' : Reuse δ) : Prop where
  length       : data.length = x.1.length.toNat
  content      : s'.content newPath = (s.content newPath).overwrite x.1.offset.toNat data
  other        : ∀ path ≠ newPath, s'.files path = s.files path
  index        : ∀ key, s'.oldChunkIndex key ⊆ s.oldChunkIndex key
  initBf       : s'.initBf = s.initBf.set x.2 true
  matched      : s'.matched = s.matched + 1
  matchedBytes : s'.matchedBytes = s.matchedBytes + x.1.length.toUInt64

theorem reuseChunk_of_some (h : cloned oldPath clones s x = some y) :
    Clones newPath s x (y.1.slice y.2.1.toNat x.1.length.toNat)
      (reuseChunk oldPath newPath clones s x) := by
  obtain ⟨old, cand⟩ := y
  obtain ⟨_, _, _, hl⟩ := cloned_eq_some h
  rw [reuseChunk, h]
  refine ⟨List.length_slice hl, ?_, fun path hp => Function.update_of_ne hp .., fun key => ?_,
    rfl, rfl, rfl⟩
  · change (Function.update s.files newPath _ newPath).getD [] = _
    rw [Function.update_self, Reuse.content]
    cases s.files newPath
    all_goals rfl
  · change Function.update s.oldChunkIndex x.1.sha256 _ key ⊆ _
    by_cases hk : key = x.1.sha256
    case pos =>
      subst hk
      rw [Function.update_self]
      exact List.erase_subset
    case neg =>
      rw [Function.update_of_ne hk]
      exact List.Subset.refl _

-- A chunk keeps what belongs to another one.
theorem bytes_reuseChunk {e : ChunkEntry δ} (hd : e.Disjoint x.1) :
    e.bytes ((reuseChunk oldPath newPath clones s x).content newPath) =
      e.bytes (s.content newPath) := by
  cases hc : cloned oldPath clones s x
  case none => rw [reuseChunk_of_none hc]
  case some y =>
    have hs : Clones newPath s x _ _ := reuseChunk_of_some hc
    rw [hs.content, ChunkEntry.bytes_overwrite_of_disjoint hd hs.length]

theorem getElem?_initBf_reuseChunk {i : Nat} (hn : x.2 ≠ i) :
    (reuseChunk oldPath newPath clones s x).initBf[i]? = s.initBf[i]? := by
  cases hc : cloned oldPath clones s x
  case none => rw [reuseChunk_of_none hc]
  case some y =>
    have hs : Clones newPath s x _ _ := reuseChunk_of_some hc
    rw [hs.initBf, List.getElem?_set_ne hn]

theorem length_content_reuseChunk :
    ((reuseChunk oldPath newPath clones s x).content newPath).length =
      (s.content newPath).length := by
  cases hc : cloned oldPath clones s x
  case none => rw [reuseChunk_of_none hc]
  case some y =>
    have hs : Clones newPath s x _ _ := reuseChunk_of_some hc
    rw [hs.content, List.length_overwrite]

theorem length_content_exec :
    ((Actions.exec (reuseChunk oldPath newPath clones) s xs).content newPath).length =
      (s.content newPath).length := by
  induction xs generalizing s
  case nil          => rfl
  case cons x xs hi => rw [Actions.exec_cons, hi, length_content_reuseChunk]

theorem length_initBf_reuseChunk :
    (reuseChunk oldPath newPath clones s x).initBf.length = s.initBf.length := by
  cases hc : cloned oldPath clones s x
  case none => rw [reuseChunk_of_none hc]
  case some y =>
    have hs : Clones newPath s x _ _ := reuseChunk_of_some hc
    rw [hs.initBf, List.length_set]

theorem length_initBf_exec :
    (Actions.exec (reuseChunk oldPath newPath clones) s xs).initBf.length = s.initBf.length := by
  induction xs generalizing s
  case nil          => rfl
  case cons x xs hi => rw [Actions.exec_cons, hi, length_initBf_reuseChunk]

variable (oldPath newPath clones) in
theorem exec_reuseChunk_frame {e : ChunkEntry δ} {i : Nat}
    (hx : ∀ x ∈ xs, e.Disjoint x.1 ∧ x.2 ≠ i) :
    e.bytes ((Actions.exec (reuseChunk oldPath newPath clones) s xs).content newPath) =
        e.bytes (s.content newPath) ∧
      (Actions.exec (reuseChunk oldPath newPath clones) s xs).initBf[i]? = s.initBf[i]? := by
  induction xs generalizing s
  case nil => exact ⟨rfl, rfl⟩
  case cons x xs hi =>
    have ⟨⟨hd, hn⟩, hxs⟩ := List.forall_mem_cons.mp hx
    have ⟨hb, ht⟩ := hi (s := reuseChunk oldPath newPath clones s x) hxs
    rw [Actions.exec_cons, hb, ht]
    exact ⟨bytes_reuseChunk hd, getElem?_initBf_reuseChunk hn⟩

-- What a chunk claims after its own step.
theorem reuseChunk_iff (hl : x.1.offset.toNat + x.1.length.toNat ≤ (s.content newPath).length)
    (hb : s.initBf[x.2]? = some false) :
    ((reuseChunk oldPath newPath clones s x).initBf[x.2]? = some true →
      sha256 (x.1.bytes ((reuseChunk oldPath newPath clones s x).content newPath)) = x.1.sha256) ↔
      SourceIntact sha256 oldPath clones s x := by
  cases hc : cloned oldPath clones s x
  case none =>
    rw [reuseChunk_of_none hc, hb]
    refine iff_of_true (fun h => by cases h) fun y hy => ?_
    rw [hc] at hy
    cases hy
  case some y =>
    have hs : Clones newPath s x _ _ := reuseChunk_of_some hc
    have hlt := (List.getElem?_eq_some_iff.mp hb).choose
    have hw := List.slice_overwrite_self (hs.length ▸ hl)
    rw [hs.length] at hw
    rw [hs.initBf, hs.content, ChunkEntry.bytes, hw, List.getElem?_set_self hlt]
    refine ⟨fun h y' hy' => ?_, fun h _ => h y hc⟩
    obtain rfl : y = y' := Option.some.inj (hc.symm.trans hy')
    exact h rfl

-- The claims of the loop are right exactly if every copy reads what it is made for: a copy is not
-- touched again, since the chunks are disjoint.
theorem exec_reuseChunk_iff (hx : xs.Pairwise fun x y => x.1.Disjoint y.1 ∧ y.2 ≠ x.2)
    (hl : ∀ x ∈ xs, x.1.offset.toNat + x.1.length.toNat ≤ (s.content newPath).length)
    (hb : ∀ x ∈ xs, s.initBf[x.2]? = some false) :
    (∀ x ∈ xs, (Actions.exec (reuseChunk oldPath newPath clones) s xs).initBf[x.2]? = some true →
      sha256 (x.1.bytes ((Actions.exec (reuseChunk oldPath newPath clones) s xs).content newPath)) =
        x.1.sha256) ↔
      Actions.AllAt (reuseChunk oldPath newPath clones) (SourceIntact sha256 oldPath clones) s xs := by
  induction xs generalizing s
  case nil => exact iff_of_true (List.forall_mem_nil _) trivial
  case cons x xs hi =>
    have ⟨hx', hxs⟩ := List.pairwise_cons.mp hx
    have ⟨hlx, hlxs⟩ := List.forall_mem_cons.mp hl
    have ⟨hbx, hbxs⟩ := List.forall_mem_cons.mp hb
    have ⟨he, ht⟩ := exec_reuseChunk_frame oldPath newPath clones
      (s := reuseChunk oldPath newPath clones s x) hx'
    rw [Actions.exec_cons, List.forall_mem_cons, Actions.allAt_cons, he, ht, reuseChunk_iff hlx hbx]
    refine and_congr_right fun _ => hi hxs ?_ ?_
    · rwa [length_content_reuseChunk]
    · intro y hy
      rw [getElem?_initBf_reuseChunk (Ne.symm (hx' y hy).right)]
      exact hbxs y hy

variable {seed : TSeedFile δ} {oldSeed : Option (TSeedFile δ)} {files : Files}

theorem content_reuseStart :
    (reuseStart sha256 seed newPath oldSeed oldPath files).content newPath =
      SegmentWriter.preallocate (files newPath) seed.fileSize := by
  change (Function.update files newPath _ newPath).getD [] = _
  rw [Function.update_self, Option.getD_some]

theorem length_initBf_reuse :
    (reuse sha256 seed newPath oldSeed oldPath files clones).initBf.length = seed.chunks.length := by
  rw [reuse, length_initBf_exec, reuseStart, List.length_map]

-- What the loop claims is in the new file.
def Claims (sha256 : List UInt8 → δ) (seed : TSeedFile δ) (newPath : String) (s : Reuse δ) : Prop :=
  ∀ (c : Nat) e, s.initBf[c]? = some true → seed.chunks[c]? = some e →
    sha256 (e.bytes (s.content newPath)) = e.sha256

theorem Claims.reuseChunk (h : Claims sha256 seed newPath s)
    (hk : KeepsClaims sha256 seed oldPath newPath clones s x) (hx : seed.chunks[x.2]? = some x.1)
    (hl : x.1.offset.toNat + x.1.length.toNat ≤ (s.content newPath).length) :
    Claims sha256 seed newPath (reuseChunk oldPath newPath clones s x) := by
  cases hc : cloned oldPath clones s x
  case none => rwa [reuseChunk_of_none hc]
  case some y =>
    have hs : Clones newPath s x _ (Task.reuseChunk oldPath newPath clones s x) :=
      reuseChunk_of_some hc
    obtain ⟨hd, hm⟩ := hk y hc
    intro c e ht he
    rw [hs.initBf] at ht
    rw [hs.content, ChunkEntry.bytes]
    by_cases hn : x.2 = c
    case pos =>
      obtain rfl : x.1 = e := Option.some.inj (hx.symm.trans (hn ▸ he))
      have hw := List.slice_overwrite_self (hs.length ▸ hl)
      rw [hs.length] at hw
      rw [hw, hd]
    case neg =>
      rw [List.getElem?_set_ne hn] at ht
      have hlt := (List.getElem?_eq_some_iff.mp he).choose
      rw [(hm c hlt ht e he).slice_overwrite]
      exact h c e ht he

theorem Claims.exec (h : Claims sha256 seed newPath s)
    (hk : Actions.AllAt (Task.reuseChunk oldPath newPath clones)
      (KeepsClaims sha256 seed oldPath newPath clones) s xs)
    (hx : ∀ x ∈ xs, seed.chunks[x.2]? = some x.1)
    (hl : ∀ x ∈ xs, x.1.offset.toNat + x.1.length.toNat ≤ (s.content newPath).length) :
    Claims sha256 seed newPath (Actions.exec (Task.reuseChunk oldPath newPath clones) s xs) := by
  induction xs generalizing s
  case nil => exact h
  case cons x xs hi =>
    have ⟨hx', hxs⟩ := List.forall_mem_cons.mp hx
    have ⟨hlx, hlxs⟩ := List.forall_mem_cons.mp hl
    refine hi (h.reuseChunk hk.left hx' hlx) hk.right hxs ?_
    rwa [length_content_reuseChunk]

theorem claims_reuse
    (hk : Actions.AllAt (reuseChunk oldPath newPath clones)
      (KeepsClaims sha256 seed oldPath newPath clones)
      (reuseStart sha256 seed newPath oldSeed oldPath files) (reuseChunks seed oldPath))
    (hl : ∀ (c : Nat) e, seed.chunks[c]? = some e →
      e.offset.toNat + e.length.toNat ≤ seed.fileSize.toNat) :
    Claims sha256 seed newPath (reuse sha256 seed newPath oldSeed oldPath files clones) := by
  refine Claims.exec (fun c e ht _ => ?_) hk (fun x => mem_reuseChunks) fun x hx => ?_
  · rw [reuseStart, List.getElem?_map] at ht
    cases hc : seed.chunks[c]? <;> simp [hc] at ht
  · rw [content_reuseStart, SegmentWriter.length_preallocate]
    exact hl _ _ (mem_reuseChunks hx)

-- The old file has the bytes that were indexed.
structure SourceKept (sha256 : List UInt8 → δ) (oldSeed : Option (TSeedFile δ)) (oldPath : String)
    (files : Files) (s : Reuse δ) : Prop where
  file  : s.files oldPath = files oldPath
  index : ∀ key, s.oldChunkIndex key ⊆
    oldIndexOf (FastCDC.scanFile sha256 (oldSeed.elim {} (·.config)) files oldPath) key

theorem SourceKept.reuseChunk (h : SourceKept sha256 oldSeed oldPath files s)
    (hn : oldPath ≠ newPath) :
    SourceKept sha256 oldSeed oldPath files (reuseChunk oldPath newPath clones s x) := by
  cases hc : cloned oldPath clones s x
  case none => rwa [reuseChunk_of_none hc]
  case some y =>
    have hs : Clones newPath s x _ _ := reuseChunk_of_some hc
    exact ⟨(hs.other _ hn).trans h.file, fun key _ hm => h.index key (hs.index key hm)⟩

theorem SourceKept.intact (h : SourceKept sha256 oldSeed oldPath files s)
    (hs : ∀ old ∈ files oldPath, old.length < 2 ^ 64) : SourceIntact sha256 oldPath clones s x := by
  rintro ⟨old, cand⟩ hy
  obtain ⟨ho, hm, hl, _⟩ := cloned_eq_some hy
  rw [h.file] at ho
  obtain ⟨c, hc, rfl⟩ := List.mem_map.mp (h.index _ hm)
  have ⟨hc, hk⟩ := List.mem_filter.mp hc
  rw [FastCDC.scanFile, ho, Option.elim_some] at hc
  have hd := ((FastCDC.tiles_scanBuffer (hs old ho)).describes hc).hash
  rw [← of_decide_eq_true hk, hd, ChunkEntry.bytes, ← hl]

theorem SourceKept.allIntact (h : SourceKept sha256 oldSeed oldPath files s)
    (hn : oldPath ≠ newPath) (hs : ∀ old ∈ files oldPath, old.length < 2 ^ 64) :
    Actions.AllAt (Task.reuseChunk oldPath newPath clones) (SourceIntact sha256 oldPath clones) s
      xs := by
  induction xs generalizing s
  case nil          => trivial
  case cons x xs hi => exact ⟨h.intact hs, hi (h.reuseChunk hn)⟩

variable {std : StdSort} {τ : Task δ}

-- What `cmd_update` returns when it succeeds, where `r` is what the loop leaves.
structure Updated (std : StdSort) (newPath : String) (speed : Nat) (order : List Nat) (r : Reuse δ)
    (τ : Task δ) : Prop where
  file        : τ.file = r.content newPath
  assemblers  : ∃ w, SegmentWriter.openWriter τ.seed.fileSize SegmentWriter.defaultSegmentSize =
    some w ∧ initAssemblers w τ.seed.chunks = some τ.assemblers
  threads     : 0 < τ.workers.length
  workers     : ∀ k ∈ τ.workers, k = {}
  verifyTasks : τ.verifyTasks = []
  results     : τ.results = []
  bitfield    : τ.initialBitfield = r.initBf
  bytesDone   : τ.bytesDone = r.matchedBytes
  state       : τ.state = .downloading
  scheduler   : τ.scheduler = Scheduler.run std
    (Scheduler.start τ.seed.chunkCount speed (sizesOf τ.seed)) ([.randomizePieceOrder order] ++
      (if 0 < r.matched then [.markAllComplete r.initBf] else []) ++
      [.setCancelIssuer, .setNotInterestedIssuer])

theorem cmdUpdate_spec
    (h : cmdUpdate sha256 std seed newPath oldSeed oldPath files clones hw speed order = some τ) :
    τ.seed = seed ∧ Updated std newPath speed order
      (reuse sha256 seed newPath oldSeed oldPath files clones) τ := by
  simp only [cmdUpdate, Option.bind_eq_bind, Option.bind_eq_some_iff] at h
  obtain ⟨w, hw, as, ha, file, hf, h⟩ := h
  cases h
  refine ⟨rfl, ?_, ⟨w, hw, ha⟩, ?_, fun _ => List.eq_of_mem_replicate, rfl, rfl, rfl, rfl, rfl, rfl⟩
  · rw [Reuse.content, hf, Option.getD_some]
  · rw [List.length_replicate, ioThreads]
    omega

theorem hasClaimed_iff
    (h : cmdUpdate sha256 std seed newPath oldSeed oldPath files clones hw speed order = some τ)
    (hp : seed.Partitioned) :
    HasClaimed sha256 τ ↔
      Actions.AllAt (reuseChunk oldPath newPath clones) (SourceIntact sha256 oldPath clones)
        (reuseStart sha256 seed newPath oldSeed oldPath files) (reuseChunks seed oldPath) := by
  obtain ⟨rfl, hu⟩ := cmdUpdate_spec h
  have hi := hu.bitfield
  have hf := hu.file
  rw [← exec_reuseChunk_iff (pairwise_reuseChunks hp)]
  case hl =>
    intro x hx
    rw [content_reuseStart, SegmentWriter.length_preallocate]
    exact hp.inside _ (List.mem_of_getElem? (mem_reuseChunks hx))
  case hb =>
    intro x hx
    rw [reuseStart, List.getElem?_map, mem_reuseChunks hx, Option.map_some]
  rw [HasClaimed, hi, hf]
  constructor
  · intro hc x hx ht
    exact hc ht (mem_reuseChunks hx)
  · intro hc c e ht he
    refine hc (e, c) ?_ ht
    by_cases ho : oldPath = ""
    case neg =>
      rw [reuseChunks, if_neg ho]
      exact List.mem_zipIdx_iff_getElem?.mpr he
    case pos =>
      rw [reuse, reuseChunks, if_pos ho, Actions.exec_nil, reuseStart, List.getElem?_map, he] at ht
      cases ht

-- `cmd_update` has the chunks that it claims exactly if no copy reads bytes that were overwritten
-- before. This is so if the paths are different. Files have a 64 bit size.
theorem update_claims_iff
    (h : cmdUpdate sha256 std seed newPath oldSeed oldPath files clones hw speed order = some τ)
    (hp : seed.Partitioned) :
    (HasClaimed sha256 τ ↔
      Actions.AllAt (reuseChunk oldPath newPath clones) (SourceIntact sha256 oldPath clones)
        (reuseStart sha256 seed newPath oldSeed oldPath files) (reuseChunks seed oldPath)) ∧
    (oldPath ≠ newPath → (∀ old ∈ files oldPath, old.length < 2 ^ 64) → HasClaimed sha256 τ) := by
  have hi := hasClaimed_iff h hp
  refine ⟨hi, fun hn hs => hi.mpr ?_⟩
  have start : SourceKept sha256 oldSeed oldPath files
      (reuseStart sha256 seed newPath oldSeed oldPath files) :=
    ⟨Function.update_of_ne hn .., fun _ => List.Subset.refl _⟩
  exact start.allIntact hn hs

end Loop

section InPlace

-- Two chunks change places. They are their own digests.
def swapSeed : TSeedFile (List UInt8) where
  fileSize := 4
  config   := { minSize := 2, maxSize := 2 }
  chunks   := [⟨0, 2, [3, 4]⟩, ⟨2, 2, [1, 2]⟩]
  countLt  := by decide

def swapFiles : Files :=
  Function.update (fun _ => none) "old" (some [1, 2, 3, 4])

def swapped (newPath : String) : Option (Task (List UInt8)) :=
  cmdUpdate id .stable swapSeed newPath (some swapSeed) "old" swapFiles (fun _ _ => true) 4 100 [0, 1]

def swappedCopy : Task (List UInt8) :=
  (swapped "new").get (by decide +kernel)

theorem swappedCopy_has_claimed :
    swappedCopy.initialBitfield = [true, true] ∧ HasClaimed id swappedCopy := by
  have hp : swapSeed.Partitioned := ⟨by decide, by decide, by decide, by decide⟩
  have hs : ∀ old ∈ swapFiles "old", old.length < 2 ^ 64 := by decide +kernel
  have h : cmdUpdate id .stable swapSeed "new" (some swapSeed) "old" swapFiles _ 4 100 [0, 1] =
      some swappedCopy := (Option.some_get _).symm
  exact ⟨by decide +kernel, (update_claims_iff h hp).right (by decide) hs⟩

-- In place, the first copy overwrites what the second one is made for.
theorem swap_in_place_loses_chunk : ∃ τ, swapped "old" = some τ ∧ ¬HasClaimed id τ := by
  refine ⟨(swapped "old").get (by decide +kernel), (Option.some_get _).symm, fun h => ?_⟩
  have hc : ((swapped "old").get (by decide +kernel)).initialBitfield[1]? = some true := by
    decide +kernel
  have hb : ChunkEntry.bytes ⟨2, 2, [1, 2]⟩ ((swapped "old").get (by decide +kernel)).file =
      [3, 4] := by
    decide +kernel
  have he : [3, 4] = ([1, 2] : List UInt8) := hb.symm.trans (h hc rfl)
  cases he

end InPlace

end Task
end ThinBT
