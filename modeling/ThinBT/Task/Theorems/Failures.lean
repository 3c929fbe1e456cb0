import ThinBT.Seed.Theorems.RoundTrip
import ThinBT.Task.Manager
import ThinBT.Task.Theorems.Reusable

namespace ThinBT

namespace Task

section Copies

variable {δ : Type} [DecidableEq δ] {sha256 : List UInt8 → δ} {seed : TSeedFile δ}
variable {oldSeed : Option (TSeedFile δ)} {oldPath newPath : String} {files : Files}

-- The chunks that are copied from the old file are already in the output file.
def Present (sha256 : List UInt8 → δ) (files : Files) (seed : TSeedFile δ) (newPath : String)
    (oldSeed : Option (TSeedFile δ)) (oldPath : String) : Prop :=
  ∀ old ∈ files oldPath, ∀ file ∈ files newPath, ∀ e ∈ seed.chunks,
    ∀ c ∈ FastCDC.scanFile sha256 (oldSeed.elim {} (·.config)) files oldPath,
      c.key = e.key → c.bytes old = e.bytes file

-- The candidate of a chunk is an entry of the old file with its key.
theorem SourceKept.exists_entry {s : Reuse δ} (h : SourceKept sha256 oldSeed oldPath files s)
    (hy : cloned oldPath clones s x = some (old, cand)) :
    files oldPath = some old ∧
      ∃ c ∈ FastCDC.scanFile sha256 (oldSeed.elim {} (·.config)) files oldPath, c.key = x.1.key ∧
        old.slice cand.1.toNat x.1.length.toNat = c.bytes old := by
  obtain ⟨ho, hm, hl, -⟩ := cloned_eq_some hy
  obtain ⟨c, hc, rfl⟩ := List.mem_map.mp (h.index _ hm)
  obtain ⟨hc, hk⟩ := List.mem_filter.mp hc
  refine ⟨h.file ▸ ho, c, hc, ?_, ?_⟩
  · exact Prod.ext (of_decide_eq_true hk) hl
  · rw [ChunkEntry.bytes, ← hl]

-- A copy of what is already there.
theorem files_reuseChunk_of_present (hp : Present sha256 files seed newPath oldSeed oldPath)
    {s : Reuse δ} (h : SourceKept sha256 oldSeed oldPath files s) (hs : s.files = files)
    (hx : x.1 ∈ seed.chunks)
    (hl : ∀ file ∈ files newPath, x.1.offset.toNat + x.1.length.toNat ≤ file.length) :
    (reuseChunk oldPath newPath clones s x).files = files := by
  cases hy : cloned oldPath clones s x
  case none => rwa [reuseChunk_of_none hy]
  case some y =>
    obtain ⟨old, cand⟩ := y
    obtain ⟨ho, c, hc, hk, hb⟩ := h.exists_entry hy
    have hlen : (old.slice cand.1.toNat x.1.length.toNat).length = x.1.length.toNat :=
      List.length_slice (cloned_eq_some hy).right.right.right
    rw [reuseChunk, hy]
    change Function.update s.files newPath ((s.files newPath).map _) = files
    rw [hs]
    have he : (files newPath).map (·.overwrite x.1.offset.toNat
        (old.slice cand.1.toNat x.1.length.toNat)) = files newPath := by
      cases hf : files newPath
      case none      => rfl
      case some file =>
        rw [Option.map_some, (List.overwrite_eq_self_iff (by rw [hlen]; exact hl file hf)).mpr]
        rw [hlen, hb, hp old ho file hf x.1 hx c hc hk]
        rfl
    rw [he, Function.update_eq_self]

theorem SourceKept.of_files {s : Reuse δ} (h : SourceKept sha256 oldSeed oldPath files s)
    (hf : (Task.reuseChunk oldPath newPath clones s x).files = files) :
    SourceKept sha256 oldSeed oldPath files (Task.reuseChunk oldPath newPath clones s x) := by
  refine ⟨by rw [hf], ?_⟩
  cases hy : cloned oldPath clones s x
  case none   => rw [reuseChunk_of_none hy]; exact h.index
  case some y =>
    have hs : Clones newPath s x _ _ := reuseChunk_of_some hy
    exact fun key _ hm => h.index key (hs.index key hm)

theorem files_exec_of_present (hp : Present sha256 files seed newPath oldSeed oldPath)
    {s : Reuse δ} (h : SourceKept sha256 oldSeed oldPath files s) (hs : s.files = files)
    (hx : ∀ x ∈ xs, x.1 ∈ seed.chunks ∧
      ∀ file ∈ files newPath, x.1.offset.toNat + x.1.length.toNat ≤ file.length) :
    (Actions.exec (reuseChunk oldPath newPath clones) s xs).files = files := by
  induction xs generalizing s
  case nil => exact hs
  case cons x xs hi =>
    obtain ⟨⟨hm, hl⟩, hxs⟩ := List.forall_mem_cons.mp hx
    have hf : (reuseChunk oldPath newPath clones s x).files = files :=
      files_reuseChunk_of_present hp h hs hm hl
    exact hi (h.of_files hf) hf hxs

-- The operating system copies one range only.
def only (i : Nat) (offset : UInt64) : Nat → UInt64 → Bool :=
  fun j o => j = i && o = offset

omit [DecidableEq δ] in
theorem cloned_only {s : Reuse δ} {old : List UInt8} {e : ChunkEntry δ} {offset : UInt64}
    (ho : s.files oldPath = some old) (hm : (offset, e.length) ∈ s.oldChunkIndex e.sha256)
    (hl : offset.toNat + e.length.toNat ≤ old.length) :
    cloned oldPath (only i offset) s (e, i) = some (old, (offset, e.length)) := by
  have hc : clonable (only i offset i) old e.length (offset, e.length) := by
    simp [clonable, only, hl]
  obtain ⟨cand, hf⟩ := Option.isSome_iff_exists.mp (List.find?_isSome.mpr ⟨_, hm, hc⟩)
  have hcand : cand = (offset, e.length) := by
    have hp := List.find?_some hf
    simp only [clonable, only, Bool.and_eq_true, decide_eq_true_eq] at hp
    exact Prod.ext hp.left.right.right hp.left.left
  simp only [cloned, ho, hf, hcand, Option.bind_eq_bind, Option.bind_some, Option.pure_def]

omit [DecidableEq δ] in
theorem cloned_only_of_ne {s : Reuse δ} (h : x.2 ≠ i) : cloned oldPath (only i offset) s x = none := by
  refine Option.eq_none_iff_forall_ne_some.mpr fun y hy => ?_
  simp only [cloned, Option.bind_eq_bind, Option.bind_eq_some_iff] at hy
  obtain ⟨old, -, cand, hf, -⟩ := hy
  have hc := List.find?_some hf
  simp [clonable, only, h] at hc

theorem reuse_only {e : ChunkEntry δ} {old : List UInt8} (hp : oldPath ≠ "")
    (he : seed.chunks[i]? = some e)
    (hs : (reuseStart sha256 seed newPath oldSeed oldPath files).files = files)
    (ho : files oldPath = some old)
    (hm : (offset, e.length) ∈
      oldIndexOf (FastCDC.scanFile sha256 (oldSeed.elim {} (·.config)) files oldPath) e.sha256)
    (hl : offset.toNat + e.length.toNat ≤ old.length) :
    (reuse sha256 seed newPath oldSeed oldPath files (only i offset)).files newPath =
      (files newPath).map (·.overwrite e.offset.toNat (old.slice offset.toNat e.length.toNat)) := by
  have hn : seed.chunks.zipIdx.Nodup := by
    refine List.Nodup.of_map Prod.snd ?_
    rw [List.zipIdx_map_snd]
    exact List.nodup_range' ..
  have hmem : (e, i) ∈ seed.chunks.zipIdx := List.mem_zipIdx_iff_getElem?.mpr he
  have others : ∀ s, ∀ x ∈ seed.chunks.zipIdx, x ≠ (e, i) →
      reuseChunk oldPath newPath (only i offset) s x = s := by
    intro s x hx hne
    refine reuseChunk_of_none (cloned_only_of_ne fun hi => hne ?_)
    have hxe := List.mem_zipIdx_iff_getElem?.mp hx
    rw [hi, he] at hxe
    exact Prod.ext (Option.some.inj hxe).symm hi
  have hc := cloned_only (i := i) ((congrFun hs oldPath).trans ho) hm hl
  rw [reuse, reuseChunks, if_neg hp, Actions.exec_eq_of_mem hn hmem others, reuseChunk, hc]
  change Function.update _ newPath _ newPath = _
  rw [Function.update_self, hs]

-- Whatever the operating system copies, the output file stays the same.
theorem reuse_kept_iff {file : List UInt8} (hf : files newPath = some file)
    (hsize : file.length = seed.fileSize.toNat)
    (hin : ∀ e ∈ seed.chunks, e.offset.toNat + e.length.toNat ≤ seed.fileSize.toNat) :
    (∀ clones, (reuse sha256 seed newPath oldSeed oldPath files clones).files newPath =
      files newPath) ↔ (oldPath ≠ "" → Present sha256 files seed newPath oldSeed oldPath) := by
  have hs : (reuseStart sha256 seed newPath oldSeed oldPath files).files = files := by
    change Function.update files newPath (some (SegmentWriter.preallocate (files newPath) _)) = files
    rw [hf, SegmentWriter.preallocate, if_pos hsize, ← hf, Function.update_eq_self]
  constructor
  · intro h hp old ho file' hf' e he c hc hk
    obtain rfl : file = file' := Option.some.inj (hf.symm.trans hf')
    obtain ⟨i, hi⟩ := List.getElem?_of_mem he
    obtain ⟨hsha, hlen⟩ := Prod.mk.inj hk
    have hfit : c.offset.toNat + e.length.toNat ≤ old.length := by
      rw [FastCDC.scanFile, ho, Option.elim_some] at hc
      rw [← hlen]
      exact FastCDC.scanBuffer_fits hc
    have hm : (c.offset, e.length) ∈
        oldIndexOf (FastCDC.scanFile sha256 (oldSeed.elim {} (·.config)) files oldPath) e.sha256 := by
      rw [← hlen, ← hsha]
      exact List.mem_map.mpr ⟨c, List.mem_filter.mpr ⟨hc, decide_eq_true rfl⟩, rfl⟩
    have hr := h (only i c.offset)
    rw [reuse_only hp hi hs ho hm hfit, hf, Option.map_some, Option.some.injEq] at hr
    have hd := List.length_slice hfit
    have hb := (List.overwrite_eq_self_iff (by rw [hd, hsize]; exact hin e he)).mp hr
    rw [hd] at hb
    rw [ChunkEntry.bytes, hlen, ChunkEntry.bytes, hb]
  · intro h clones
    rw [reuse]
    by_cases hp : oldPath = ""
    case pos => rw [reuseChunks, if_pos hp, Actions.exec_nil, hs]
    case neg =>
      have hk : SourceKept sha256 oldSeed oldPath files
          (reuseStart sha256 seed newPath oldSeed oldPath files) :=
        ⟨by rw [hs], fun _ => List.Subset.refl _⟩
      rw [files_exec_of_present (h hp) hk hs]
      intro x hx
      have hm := List.mem_of_getElem? (mem_reuseChunks hx)
      refine ⟨hm, fun file' hf' => ?_⟩
      obtain rfl : file = file' := Option.some.inj (hf.symm.trans hf')
      rw [hsize]
      exact hin x.1 hm

end Copies

end Task

namespace TaskManager

section Definitions

-- A command that fails leaves the tasks and the output file as they were.
def Intact (m : TaskManager) (path : String) (r : TaskManager × Reply) : Prop :=
  r.2.failed → r.1.tasks = m.tasks ∧ r.1.files path = m.files path

-- Every chunk of the table gets a base address.
def Accepts (seed : TSeedFile Sha256Digest) : Prop :=
  ∀ w, SegmentWriter.openWriter seed.fileSize SegmentWriter.defaultSegmentSize = some w →
    ∀ e ∈ seed.chunks, (w.getChunkBase e.offset e.length).isSome

-- The command gets to the listening socket.
structure Ready (os : Os) (accepted : Prop) : Prop where
  accepted : accepted
  maps     : os.maps
  starts   : os.starts = .ok ()

-- What has to hold once the output file can be opened, where `unheard` is for a command that does not
-- get its listening socket.
structure Safe (os : Os) (m : TaskManager) (path : String) (fileSize : UInt64)
    (announceUrl : List UInt8) (accepted unheard : Prop) : Prop where
  kept    : sizeMatches (m.files path) fileSize → Ready os accepted →
    (os.listens = .ok () → os.resolves (m.trackerOf announceUrl) = .ok ()) ∧
    (os.listens ≠ .ok () → unheard)
  resized : ¬sizeMatches (m.files path) fileSize → allocated os fileSize →
    Ready os accepted ∧ os.listens = .ok () ∧ os.resolves (m.trackerOf announceUrl) = .ok ()
  emptied : ¬sizeMatches (m.files path) fileSize → ¬allocated os fileSize → m.files path = some []

end Definitions

section Create

variable {os : Os} {m : TaskManager} {tid path : String} {url : List UInt8} {fileSize : UInt64}
variable {task : Option (Task Sha256Digest)} {copied : Files → Files}

theorem tasks_store_ne {τ : Task Sha256Digest} : (m.store tid τ).tasks ≠ m.tasks := by
  intro h
  have ht : m.tasks tid = some (m.made, τ) := by
    rw [← h]
    exact Function.update_self ..
  exact Nat.lt_irrefl _ (m.made_lt tid _ ht)

theorem launch_of_not_ready (h : ¬Ready os task.isSome) :
    ∃ reply, launch os m tid url task copied response = (m, reply) ∧ reply.failed := by
  unfold launch
  split
  case h_1   => exact ⟨_, rfl, rfl⟩
  case h_2 τ =>
    split
    case isFalse    => exact ⟨_, rfl, rfl⟩
    case isTrue hm =>
      split
      case h_1      => exact ⟨_, rfl, rfl⟩
      case h_2 _ hs => exact absurd ⟨rfl, hm, hs⟩ h

theorem launch_of_ready (h : Ready os task.isSome) :
    ∃ τ reply, launch os m tid url task copied response =
        (if os.listens = .ok () then { m with files := copied m.files }.store tid τ
          else { m with files := copied m.files }, reply) ∧
      (reply.failed = false ↔
        os.listens = .ok () ∧ os.resolves (m.trackerOf url) = .ok ()) := by
  obtain ⟨ht, hm, hs⟩ := h
  obtain ⟨τ, rfl⟩ := Option.isSome_iff_exists.mp ht
  have hu : ({ m with files := copied m.files }.store tid τ).trackerOf url = m.trackerOf url := rfl
  simp only [launch, if_pos hm, hs, hu]
  refine ⟨τ, ?_⟩
  cases hl : os.listens
  case error what => exact ⟨_, rfl, by simp [Reply.failed]⟩
  case ok =>
    cases hr : os.resolves (m.trackerOf url)
    case error what => exact ⟨_, rfl, by simp [Reply.failed]⟩
    case ok         => exact ⟨_, rfl, by simp [Reply.failed]⟩

-- The state before, in which the output file may already have changed, has the same tasks.
theorem launch_intact_iff {m' : TaskManager} (ht : m'.tasks = m.tasks) :
    Intact m path (launch os m' tid url task copied response) ↔
      (¬Ready os task.isSome → m'.files path = m.files path) ∧
      (Ready os task.isSome →
        (os.listens = .ok () → os.resolves (m'.trackerOf url) = .ok ()) ∧
        (os.listens ≠ .ok () → copied m'.files path = m.files path)) := by
  by_cases hr : Ready os task.isSome
  case neg =>
    obtain ⟨reply, hl, hf⟩ := launch_of_not_ready hr
    rw [hl, Intact]
    simp only [hf, ht, hr, not_false_eq_true, true_and, forall_const, false_implies, and_true]
  case pos =>
    obtain ⟨τ, reply, hl, hf⟩ := launch_of_ready hr
    rw [hl, Intact]
    by_cases hok : os.listens = .ok ()
    case pos =>
      have hs : ({ m' with files := copied m'.files }.store tid τ).tasks ≠ m.tasks :=
        fun h => tasks_store_ne (h.trans ht.symm)
      simp only [hok, true_and, if_true] at hf ⊢
      simp only [hs, false_and, imp_false, Bool.not_eq_true, hf, hr, not_true_eq_false, false_implies,
        forall_const, ne_eq, and_true, true_and]
    case neg =>
      have hf : reply.failed = true := by simpa [hok] using hf
      simp only [hok, if_false, hf, ht, hr, not_true_eq_false, false_implies, forall_const, true_and,
        ne_eq, not_false_eq_true]

theorem sizeMatches_iff {existing : Option (List UInt8)} :
    sizeMatches existing fileSize ↔ ∃ file, existing = some file ∧ file.length = fileSize.toNat := by
  rw [sizeMatches, Option.any_eq_true]
  simp

theorem openOutput_of_matches (hz : fileSize ≠ 0) (ho : os.opens)
    (hm : sizeMatches (m.files path) fileSize) :
    openOutput os m.files path fileSize = (true, m.files) := by
  obtain ⟨file, hf, hl⟩ := sizeMatches_iff.mp hm
  have hs : some (SegmentWriter.preallocate (m.files path) fileSize) = m.files path := by
    rw [hf, SegmentWriter.preallocate, if_pos hl]
  rw [openOutput, if_neg (by simp [hz, ho]), if_pos (by simp [hm]), hs, Function.update_eq_self]

theorem openOutput_of_allocated (hz : fileSize ≠ 0) (ho : os.opens) (ha : allocated os fileSize) :
    ∃ o, openOutput os m.files path fileSize = (true, o) := by
  rw [openOutput, if_neg (by simp [hz, ho]), if_pos (by simp [ha])]
  exact ⟨_, rfl⟩

theorem sizeMatches_of_openOutput (h : openOutput os m.files path fileSize = (true, o)) :
    sizeMatches (o path) fileSize := by
  rw [openOutput] at h
  split at h
  case isTrue  => cases h
  case isFalse =>
    split at h
    case isTrue =>
      obtain rfl := (Prod.mk.inj h).right
      exact sizeMatches_iff.mpr ⟨_, Function.update_self .., SegmentWriter.length_preallocate⟩
    case isFalse => cases h

-- A file of another size has changed.
theorem ne_of_sizeMatches {existing file : Option (List UInt8)} (h : sizeMatches file fileSize)
    (hn : ¬sizeMatches existing fileSize) : file ≠ existing :=
  fun he => hn (he ▸ h)

theorem create_intact_iff (hc : fileSize ≠ 0 → ∀ o, openOutput os m.files path fileSize = (true, o) →
      sizeMatches (copied o path) fileSize) :
    Intact m path (create os m tid path fileSize url task copied response) ↔
      (fileSize ≠ 0 → os.opens →
        Safe os m path fileSize url task.isSome (copied m.files path = m.files path)) := by
  by_cases hz : fileSize = 0 ∨ os.opens = false
  case pos =>
    have ho : openOutput os m.files path fileSize = (false, m.files) := by
      rw [openOutput, if_pos (by simpa using hz)]
    rw [create, ho]
    refine iff_of_true (fun _ => ⟨rfl, rfl⟩) fun hn ho => ?_
    exact absurd hz (by simp [hn, ho])
  case neg =>
    rw [not_or, Bool.not_eq_false] at hz
    obtain ⟨hz, hopen⟩ := hz
    simp only [ne_eq, hz, hopen, not_false_eq_true, forall_const]
    by_cases hm : sizeMatches (m.files path) fileSize
    case pos =>
      have ho := openOutput_of_matches hz hopen hm
      simp only [create, ho, if_true, launch_intact_iff]
      constructor
      · intro h
        exact ⟨fun _ => h.right, fun hn => absurd hm hn, fun hn => absurd hm hn⟩
      · intro h
        exact ⟨fun _ => trivial, h.kept hm⟩
    case neg =>
      by_cases ha : allocated os fileSize
      case pos =>
        obtain ⟨o, ho⟩ := openOutput_of_allocated hz hopen ha
        have hs := ne_of_sizeMatches (sizeMatches_of_openOutput ho) hm
        have hcopied := ne_of_sizeMatches (hc hz o ho) hm
        simp only [create, ho, if_true, launch_intact_iff]
        constructor
        · rintro ⟨hn, hr⟩
          have hready : Ready os task.isSome := not_not.mp fun h => hs (hn h)
          have hl : os.listens = .ok () := not_not.mp fun h => hcopied ((hr hready).right h)
          exact ⟨fun h => absurd h hm, fun _ _ => ⟨hready, hl, (hr hready).left hl⟩,
            fun _ h => absurd ha h⟩
        · intro h
          obtain ⟨hready, hl, hres⟩ := h.resized hm ha
          exact ⟨fun hn => absurd hready hn, fun _ => ⟨fun _ => hres, fun hn => absurd hl hn⟩⟩
      case neg =>
        have ho : openOutput os m.files path fileSize =
            (false, Function.update m.files path (some [])) := by
          rw [openOutput, if_neg (by simp [hz, hopen]), if_neg (by simp [hm, ha])]
        simp only [create, ho, Bool.false_eq_true, if_false, Intact, Function.update_self]
        constructor
        · intro h
          exact ⟨fun hn => absurd hn hm, fun _ hn => absurd hn ha, fun _ _ => (h rfl).right.symm⟩
        · intro h _
          exact ⟨trivial, (h.emptied hm ha).symm⟩

variable {accepted accepted' unheard unheard' : Prop}

theorem Safe.imp (h : Safe os m path fileSize url accepted unheard)
    (hu : sizeMatches (m.files path) fileSize → accepted → unheard → unheard') :
    Safe os m path fileSize url accepted unheard' := by
  refine ⟨fun hm hr => ⟨(h.kept hm hr).left, fun hl => ?_⟩, h.resized, h.emptied⟩
  exact hu hm hr.accepted ((h.kept hm hr).right hl)

theorem Safe.congr (ha : accepted ↔ accepted')
    (hu : sizeMatches (m.files path) fileSize → accepted' → (unheard ↔ unheard')) :
    Safe os m path fileSize url accepted unheard ↔
      Safe os m path fileSize url accepted' unheard' := by
  obtain rfl := propext ha
  exact ⟨(·.imp fun hm ha => (hu hm ha).mp), (·.imp fun hm ha => (hu hm ha).mpr)⟩

theorem safe_forall_iff {ι : Type} [Inhabited ι] {P : ι → Prop} :
    (∀ i, Safe os m path fileSize url accepted (P i)) ↔
      Safe os m path fileSize url accepted (∀ i, P i) := by
  constructor
  · intro h
    refine ⟨fun hm hr => ⟨((h default).kept hm hr).left, fun hl i => ?_⟩, (h default).resized,
      (h default).emptied⟩
    exact ((h i).kept hm hr).right hl
  · exact fun h i => h.imp fun _ _ hp => hp i

end Create

section Commands

variable {sha256 : List UInt8 → Sha256Digest} {std : StdSort} {seed : TSeedFile Sha256Digest}
variable {files : Files}

theorem isSome_initAssemblers_iff {w : SegmentWriter} {cs : List (ChunkEntry Sha256Digest)} :
    (Task.initAssemblers w cs).isSome ↔ ∀ e ∈ cs, (w.getChunkBase e.offset e.length).isSome := by
  induction cs
  case nil => simp [Task.initAssemblers]
  case cons e cs hi =>
    rw [List.forall_mem_cons, ← hi, Task.initAssemblers]
    cases w.getChunkBase e.offset e.length
    case none => simp
    case some => cases Task.initAssemblers w cs <;> simp

theorem exists_openWriter {n : UInt64} (h : n ≠ 0) :
    ∃ w, SegmentWriter.openWriter n SegmentWriter.defaultSegmentSize = some w := by
  rw [SegmentWriter.openWriter, if_neg h]
  exact ⟨_, rfl⟩

theorem accepts_iff {w : SegmentWriter}
    (h : SegmentWriter.openWriter seed.fileSize SegmentWriter.defaultSegmentSize = some w) :
    Accepts seed ↔ (Task.initAssemblers w seed.chunks).isSome := by
  rw [Accepts, isSome_initAssemblers_iff]
  constructor
  · exact fun ha => ha w h
  · intro ha w' hw'
    obtain rfl := Option.some.inj (h.symm.trans hw')
    exact ha

theorem isSome_cmdAdd_iff (h : seed.fileSize ≠ 0) :
    (Task.cmdAdd sha256 std seed existing hw speed order).isSome ↔ Accepts seed := by
  obtain ⟨w, hw⟩ := exists_openWriter h
  rw [accepts_iff hw, Task.cmdAdd]
  simp only [hw, Option.bind_eq_bind, Option.bind_some]
  cases Task.initAssemblers w seed.chunks <;> simp

theorem sizeMatches_reuse (h : seed.fileSize ≠ 0) :
    sizeMatches ((Task.reuse sha256 seed newPath oldSeed oldPath files clones).files newPath)
      seed.fileSize := by
  have hl : ((Task.reuse sha256 seed newPath oldSeed oldPath files clones).content newPath).length =
      seed.fileSize.toNat := by
    rw [Task.reuse, Task.length_content_exec, Task.content_reuseStart, SegmentWriter.length_preallocate]
  rw [Reuse.content] at hl
  rw [sizeMatches_iff]
  cases hf : (Task.reuse sha256 seed newPath oldSeed oldPath files clones).files newPath
  case none =>
    rw [hf] at hl
    exact absurd (UInt64.toNat_inj.mp hl.symm) h
  case some file =>
    rw [hf] at hl
    exact ⟨file, rfl, hl⟩

theorem isSome_cmdUpdate_iff (h : seed.fileSize ≠ 0) :
    (Task.cmdUpdate sha256 std seed newPath oldSeed oldPath files clones hw speed order).isSome ↔
      Accepts seed := by
  obtain ⟨w, hw⟩ := exists_openWriter h
  have hs : sizeMatches ((Task.reuse sha256 seed newPath oldSeed oldPath files clones).files newPath)
      seed.fileSize := sizeMatches_reuse h
  obtain ⟨file, hf, -⟩ := sizeMatches_iff.mp hs
  rw [accepts_iff hw, Task.cmdUpdate]
  simp only [hw, hf, Option.bind_eq_bind, Option.bind_some]
  cases Task.initAssemblers w seed.chunks <;> simp

theorem Accepts.inside (h : Accepts seed) (hz : seed.fileSize ≠ 0) :
    ∀ e ∈ seed.chunks, e.offset.toNat + e.length.toNat ≤ seed.fileSize.toNat := by
  intro e he
  obtain ⟨w, hw⟩ := exists_openWriter hz
  obtain ⟨base, hb⟩ := Option.isSome_iff_exists.mp (h w hw e he)
  exact (SegmentWriter.getChunkBase_spec hw hb).right.left

variable {η : Type} {sha1 : List UInt8 → η} {sha256Hex : List UInt8 → String} {os : Os}
variable {m : TaskManager} {tid seedPath savePath oldSeedPath oldFilePath : String}

theorem add_intact_iff :
    Intact m savePath (cmdAdd sha1 sha256 sha256Hex std os m tid seedPath savePath hw speed order) ↔
      ∀ seed url, readSeed sha1 sha256Hex m.files seedPath = .ok (seed, url) → seed.fileSize ≠ 0 →
        os.opens → Safe os m savePath seed.fileSize url (Accepts seed) True := by
  rw [cmdAdd]
  cases hr : readSeed sha1 sha256Hex m.files seedPath
  case error what => exact iff_of_true (fun _ => ⟨rfl, rfl⟩) fun _ _ h => by cases h
  case ok x =>
    obtain ⟨seed, url⟩ := x
    simp only [Except.ok.injEq, Prod.mk.injEq, and_imp, forall_eq', forall_apply_eq_imp_iff]
    refine (create_intact_iff fun _ o ho => sizeMatches_of_openOutput ho).trans ?_
    refine forall_congr' fun hz => forall_congr' fun _ => Safe.congr (isSome_cmdAdd_iff hz) ?_
    exact fun _ _ => iff_of_true rfl trivial

-- The operating system may copy as it likes.
theorem update_intact_iff :
    (∀ clones, Intact m savePath (cmdUpdate sha1 sha256 sha256Hex std os clones m tid seedPath savePath
      oldSeedPath oldFilePath hw speed order)) ↔
      ∀ seed url, readSeed sha1 sha256Hex m.files seedPath = .ok (seed, url) → seed.fileSize ≠ 0 →
        os.opens → Safe os m savePath seed.fileSize url (Accepts seed)
          (∀ oldSeed oldUrl, readSeed sha1 sha256Hex m.files oldSeedPath = .ok (oldSeed, oldUrl) →
            oldFilePath ≠ "" →
              Task.Present sha256 m.files seed savePath (some oldSeed) oldFilePath) := by
  simp only [cmdUpdate]
  cases hr : readSeed sha1 sha256Hex m.files seedPath
  case error what => exact iff_of_true (fun _ _ => ⟨rfl, rfl⟩) fun _ _ h => by cases h
  case ok x =>
    obtain ⟨seed, url⟩ := x
    simp only [Except.ok.injEq, Prod.mk.injEq, and_imp, forall_eq', forall_apply_eq_imp_iff]
    refine (forall_congr' fun clones =>
      create_intact_iff fun hz _ _ => sizeMatches_reuse hz).trans ?_
    rw [forall_comm]
    refine forall_congr' fun hz => ?_
    rw [forall_comm]
    refine forall_congr' fun _ => ?_
    refine (forall_congr' fun clones =>
      Safe.congr (isSome_cmdUpdate_iff hz) fun _ _ => Iff.rfl).trans ?_
    rw [safe_forall_iff]
    refine Safe.congr Iff.rfl fun hm ha => ?_
    obtain ⟨file, hf, hl⟩ := sizeMatches_iff.mp hm
    rw [Task.reuse_kept_iff hf hl (ha.inside hz)]
    cases ho : readSeed sha1 sha256Hex m.files oldSeedPath
    case error what => exact iff_of_true (fun h => absurd rfl h) fun _ _ h => by cases h
    case ok y =>
      obtain ⟨oldSeed, oldUrl⟩ := y
      simp only [Except.ok.injEq, Prod.mk.injEq, and_imp, forall_eq', forall_apply_eq_imp_iff]
      exact Iff.rfl

theorem failed_command_intact_iff :
    (Intact m savePath (cmdAdd sha1 sha256 sha256Hex std os m tid seedPath savePath hw speed order) ↔
      ∀ seed url, readSeed sha1 sha256Hex m.files seedPath = .ok (seed, url) → seed.fileSize ≠ 0 →
        os.opens → Safe os m savePath seed.fileSize url (Accepts seed) True) ∧
    ((∀ clones, Intact m savePath (cmdUpdate sha1 sha256 sha256Hex std os clones m tid seedPath savePath
      oldSeedPath oldFilePath hw speed order)) ↔
      ∀ seed url, readSeed sha1 sha256Hex m.files seedPath = .ok (seed, url) → seed.fileSize ≠ 0 →
        os.opens → Safe os m savePath seed.fileSize url (Accepts seed)
          (∀ oldSeed oldUrl, readSeed sha1 sha256Hex m.files oldSeedPath = .ok (oldSeed, oldUrl) →
            oldFilePath ≠ "" →
              Task.Present sha256 m.files seed savePath (some oldSeed) oldFilePath)) :=
  ⟨add_intact_iff, update_intact_iff⟩

end Commands

section Refused

theorem readSeed_of_parseTseed {t : TSeedContents η} {files : Files} (hf : files path = some bytes)
    (h : parseTseed sha1 sha256Hex bytes = .ok (t, rest)) :
    ∃ hl, readSeed sha1 sha256Hex files path = .ok (t.seedFile hl, t.announceUrl) := by
  have hl : t.chunks.length < 2 ^ 32 := by
    rw [(parseTseed_eq_ok.mp h).left.chunks]
    exact t.header.chunkCount.toNat_lt
  refine ⟨hl, ?_⟩
  have hr : readTseed sha1 sha256Hex files path = .ok t := by
    rw [readTseed, hf]
    simp only [h]
    rfl
  rw [readSeed, hr]
  exact dif_pos hl

-- A chunk that lies behind the end of the file.
def refused : TSeedContents Unit where
  header      := { tseedHeader ⟨.replicate 32 0, rfl⟩ [] [] [⟨5, 1, ⟨.replicate 32 0, rfl⟩⟩] {} with
    fileSize := 2 }
  fileName    := []
  announceUrl := []
  chunks      := [⟨5, 1, ⟨.replicate 32 0, rfl⟩⟩]
  infoHash    := ()

def granting : Os where
  opens     := true
  allocates := true
  maps      := true
  starts    := .ok ()
  listens   := .ok ()
  resolves  := fun _ => .ok ()

def threeBytes : TaskManager where
  files path := if path = "s" then some (refused.layout true)
    else if path = "f" then some [1, 2, 3] else none

theorem refused_table_resizes_file :
    (cmdAdd (fun _ => ()) (fun _ => ⟨.replicate 32 0, rfl⟩) (fun _ => "") .stable granting threeBytes
      "t" "s" "f" 4 1000 []).2 = .error noChunkBase ∧
    (cmdAdd (fun _ => ()) (fun _ => ⟨.replicate 32 0, rfl⟩) (fun _ => "") .stable granting threeBytes
      "t" "s" "f" 4 1000 []).1.files "f" = some [0, 0] := by
  have hw : refused.WellFormed fun _ => () := ⟨rfl, by decide, rfl, rfl, rfl, rfl⟩
  have hs : threeBytes.files "s" = some (refused.layout true) := by simp [threeBytes]
  obtain ⟨hl, hr⟩ : ∃ hl, readSeed (fun _ => ()) (fun _ => "") threeBytes.files "s" =
      .ok (refused.seedFile hl, refused.announceUrl) := readSeed_of_parseTseed hs (hw.parse true)
  rw [cmdAdd, hr]
  exact ⟨rfl, rfl⟩

end Refused

end TaskManager

end ThinBT
