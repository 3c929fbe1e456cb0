import ThinBT.Cdc.Theorems.Tiling
import ThinBT.Node.Theorems.Slots
import ThinBT.Seed.Theorems.InfoHash
import ThinBT.Swarm.Theorems.Bytes
import ThinBT.Swarm.Theorems.Safety
import ThinBT.Task.Manager

namespace ThinBT

namespace Swarm

variable {δ : Type} [DecidableEq δ] {w w' : Swarm δ} {source : List UInt8} {seed : TSeedFile δ}
variable {m : Nat}

-- A swarm that shares the source, after at most so many steps.
structure Sharing (source : List UInt8) (seed : TSeedFile δ) (m : Nat) (w : Swarm δ) : Prop where
  paired  : w.Paired
  trusted : w.Trusted (.bytes source seed)
  seated  : ∀ n ∈ w.nodes, n.Seated ∧ n.sessions.length ≤ m

namespace Sharing

theorem mono (h : w.Sharing source seed m) (hm : m ≤ m') : w.Sharing source seed m' :=
  ⟨h.paired, h.trusted, fun n hn => ⟨(h.seated n hn).left, (h.seated n hn).right.trans hm⟩⟩

theorem opensFresh (h : w.Sharing source seed m) : w.Each Node.OpensFresh x :=
  fun _ _ n hn _ => (h.seated n (List.mem_of_getElem? hn)).left.freshSlot

theorem sameSeed (h : w.Sharing source seed m) (hn : n ∈ w.nodes) : n.task.seed = seed := by
  obtain ⟨i, hi⟩ := List.getElem?_of_mem hn
  exact (h.trusted i n hi).sameSeed

-- A node that has all chunks has the source.
theorem file_eq (h : w.Sharing source seed m) {sha256 : List UInt8 → δ}
    (hs : seed.SeedOf sha256 source) (hn : n ∈ w.nodes)
    (hc : ∀ c ∈ n.task.scheduler.chunkStates, c = .complete) : n.task.file = source := by
  obtain ⟨i, hi⟩ := List.getElem?_of_mem hn
  have hT := h.trusted i n hi
  refine hs.file_eq hT.keeps.length fun e he => ?_
  obtain ⟨c, hce⟩ := List.getElem?_of_mem he
  have hlt := (List.getElem?_eq_some_iff.mp hce).choose
  rw [← hT.sameSeed, ← hT.wired.indexed.totalChunks] at hlt
  obtain ⟨st, hst⟩ : ∃ st, n.task.scheduler.chunkStates[c]? = some st :=
    ⟨_, List.getElem?_eq_getElem hlt⟩
  rw [hc st (List.mem_of_getElem? hst)] at hst
  exact h.trusted.safe.complete n hn c hst e (hT.sameSeed ▸ hce)

variable {sha256 : List UInt8 → δ} {std : StdSort} {x : UInt64 × Op}

theorem start {tasks : List (Task δ)} (hs : seed.SeedOf sha256 source)
    (hc : seed.CollisionFree sha256 source) (hτ : ∀ τ ∈ tasks, τ.Shares sha256 std source seed) :
    (start tasks).Sharing source seed 0 := by
  refine ⟨paired_start, trusted_start hτ fun τ hm => (hτ τ hm).sound hs hc, fun n hn => ?_⟩
  obtain ⟨τ, hm, rfl⟩ := List.mem_map.mp hn
  exact ⟨Node.seated_start (hτ τ hm).started.left.peerSlots, Nat.le_refl 0⟩

theorem step (h : w.Sharing source seed m) (hs : seed.SeedOf sha256 source)
    (hm : m + 1 < UInt32.size) (hst : w.step sha256 std x = some w') :
    w'.Sharing source seed (m + 1) := by
  refine ⟨h.paired.step hst, h.trusted.step h.paired hs h.opensFresh hst, fun n' hn' => ?_⟩
  obtain ⟨i, hi⟩ := List.getElem?_of_mem hn'
  obtain ⟨n, hn, hstep⟩ := node_step hst hi
  have hmem := List.mem_of_getElem? hn
  obtain ⟨hse, hl⟩ := h.seated n hmem
  obtain rfl | ⟨op, _, hstep⟩ := hstep
  case inl => exact ⟨hse, Nat.le_succ_of_le hl⟩
  case inr =>
    obtain ⟨hse', hl'⟩ := hse.step (h.paired.basic n hmem) (by omega) hstep
    exact ⟨hse', by omega⟩

theorem step_defined (h : w.Sharing source seed m) (hs : seed.SeedOf sha256 source)
    (hl : seed.chunks.length + 7 < 2 ^ 32) : ∃ w', w.step sha256 std x = some w' :=
  Option.isSome_iff_exists.mp (h.trusted.step_defined h.paired hs h.opensFresh hl)

end Sharing
end Swarm

namespace ByteSwarm

open Socket

variable {δ : Type} {p : Identity} {b : ByteSwarm δ} {total : Nat}

theorem Op.Matches.length_le (h : Op.Matches x ops) : ops.length ≤ 1 := by
  cases h
  all_goals simp

theorem Faithful.arrive_defined (h : b.Faithful p total) (ht : total ≤ 8 * maxMsgSize) :
    ∃ b', b.arrive p e n = some b' := by
  have hw : ∃ bytes, written p b.swarm e = some bytes := by
    cases hm : b.swarm.mate e
    case none => exact ⟨[], by rw [written, hm]⟩
    case some d =>
      obtain ⟨t, hd⟩ := h.paired.live (h.paired.symm hm)
      rw [written_eq hm hd]
      exact (readable h.compact h.speaks ht hd).encodeAll (List.Subset.refl _)
  obtain ⟨bytes, hw⟩ := hw
  exact ⟨_, by rw [ByteSwarm.arrive, hw]; rfl⟩

variable [DecidableEq δ] {sha256 : List UInt8 → δ} {std : StdSort} {source : List UInt8}
variable {seed : TSeedFile δ}

-- What a session reads is defined if the steps of the swarm are.
theorem Faithful.read_defined {now : UInt64} (h : b.Faithful p total) (ht : total ≤ 8 * maxMsgSize)
    (hd : ∀ op, ∃ w', b.swarm.step sha256 std (now, op) = some w') :
    ∃ b', b.read sha256 std p now e peers = some b' := by
  rw [ByteSwarm.read]
  split
  case h_1 => exact ⟨b, rfl⟩
  case h_2 s hs =>
    obtain ⟨ev, k, hpoll, w', hw⟩ : ∃ ev k, (b.socket e).poll p.infoHash s = some (ev, k) ∧
        ∃ w', handle sha256 std b.swarm now e peers ev = some w' := by
      cases hm : b.swarm.mate e
      case none => exact ⟨.wait, {}, by rw [h.idle hm, poll_empty], _, rfl⟩
      case some d =>
        obtain ⟨t, hdt⟩ := h.paired.live (h.paired.symm hm)
        obtain ⟨pending, hst, hk⟩ := h.tracks hm hs hdt
        have hread : Readable (p.hello d) pending := fun m hmem =>
          readable h.compact h.speaks ht hdt m (hst ▸ List.mem_append_right _ hmem)
        obtain ⟨ev, k, hpoll, hpd, _⟩ := poll_spec greets_hello hread hk (h.early hs)
        refine ⟨ev, k, hpoll, ?_⟩
        cases hpd with
        | wait | next => exact ⟨_, rfl⟩
        | closed | refuse =>
          obtain ⟨w', hw⟩ := hd (.node e.node (.readError e.session))
          exact ⟨w', step_readError.symm.trans hw⟩
        | @message m ms k he =>
          obtain ⟨w', hw⟩ := hd (.deliver e peers)
          exact ⟨w', (step_deliver (nextMessage_eq hm hs hdt (he ▸ hst))).symm.trans hw⟩
    rw [hpoll]
    simp only [Option.bind_eq_bind, Option.bind_some, hw]
    exact ⟨_, rfl⟩

-- Each step is defined, and it keeps what is known about the swarm.
theorem sharing_step {x : UInt64 × Op} (hs : seed.SeedOf sha256 source)
    (ht : seed.chunks.length ≤ 8 * maxMsgSize) (hm : m + 1 < UInt32.size)
    (h : b.Faithful p seed.chunks.length ∧ b.swarm.Sharing source seed m) (hx : x.2.ShortPex) :
    ∃ b', step sha256 std p b x = some b' ∧
      b'.Faithful p seed.chunks.length ∧ b'.swarm.Sharing source seed (m + 1) := by
  obtain ⟨hf, hsh⟩ := h
  have hl : seed.chunks.length + 7 < 2 ^ 32 := by
    rw [maxMsgSize] at ht
    omega
  obtain ⟨b', hb⟩ : ∃ b', step sha256 std p b x = some b' := by
    obtain ⟨now, op⟩ := x
    cases op
    case arrive e n   => exact hf.arrive_defined ht
    case read e peers => exact hf.read_defined ht fun op => hsh.step_defined hs hl
    case swarm op =>
      simp only [step]
      split
      case isTrue  => exact ⟨b, rfl⟩
      case isFalse =>
        obtain ⟨w', hw⟩ : ∃ w', b.swarm.step sha256 std (now, op) = some w' := hsh.step_defined hs hl
        exact ⟨_, by rw [hw]; rfl⟩
  refine ⟨b', hb, ?_⟩
  obtain ⟨ops, w', hmatch, hrun, hf', rfl⟩ := simulates ht b x b' b.swarm ⟨hf, rfl⟩ hx hb
  refine ⟨hf', ?_⟩
  cases ops
  case nil =>
    rw [← Option.some.inj hrun]
    exact hsh.mono (Nat.le_succ m)
  case cons y ops =>
    obtain rfl := List.length_eq_zero_iff.mp (Nat.le_zero.mp (Nat.le_of_succ_le_succ hmatch.length_le))
    obtain ⟨_, hy, hw⟩ := Machine.run_cons.mp hrun
    obtain rfl := Option.some.inj hw
    exact hsh.step hs hm hy

end ByteSwarm

section Made

open Cli

variable {η : Type} {sha1 : List UInt8 → η} {sha256 : List UInt8 → Sha256Digest}
variable {sha256Hex : List UInt8 → String} {files : Files} {o : MakeOptions} {source : List UInt8}

-- The seed that is read back from the file that `cli_make` writes.
theorem readSeed_make (hl : source.length < 2 ^ 64)
    (hc : (FastCDC.scanBuffer sha256 {} source).length < 2 ^ 32)
    (hn : (utf8 (baseName o.filePath)).length < 2 ^ 32)
    (hu : (utf8 (o.announceUrl ip)).length < 2 ^ 32) :
    ∃ seed, TaskManager.readSeed sha1 sha256Hex (files.write o.seedPath (o.seed sha256 ip source))
        o.seedPath = .ok (seed, utf8 (o.announceUrl ip)) ∧
      seed.SeedOf sha256 source ∧ seed.chunks = FastCDC.scanBuffer sha256 {} source := by
  let t := TSeedContents.written sha1 (sha256 source) (utf8 (baseName o.filePath))
    (utf8 (o.announceUrl ip)) (FastCDC.scanBuffer sha256 {} source) {}
  have hw : t.WellFormed sha1 := wellFormed_written hn hu hc
  have hp : parseTseed sha1 sha256Hex (o.seed sha256 ip source) = .ok (t, []) := hw.parse true
  refine ⟨t.seedFile hc, ?_, seedOf_written hl hc, rfl⟩
  rw [TaskManager.readSeed, readTseed, Files.write, if_pos rfl]
  simp only [hp]
  exact dif_pos hc

-- What `cli_make` writes for a file is all that other nodes need: the swarm that is made of the seeder
-- and of the nodes that download it never fails, no verification does, and whatever is complete is as
-- it is in the file.
theorem made_file_is_distributed (sha1 : List UInt8 → η) (sha256 : List UInt8 → Sha256Digest)
    (sha256Hex : List UInt8 → String) (ip : String) (files files' : Files) (o : MakeOptions)
    (r : MakeResponse η) (source : List UInt8)
    (hmake : make sha1 sha256 ip files o = .ok (r, files')) (hf : files o.filePath = some source)
    (hne : o.filePath ≠ o.seedPath) (hl : source.length < 2 ^ 64)
    (hc : (FastCDC.scanBuffer sha256 {} source).length ≤ 8 * maxMsgSize)
    (hn : (utf8 (baseName o.filePath)).length < 2 ^ 32)
    (hu : (utf8 (o.announceUrl ip)).length < 2 ^ 32) :
    files' o.filePath = some source ∧
    ∃ seed, TaskManager.readSeed sha1 sha256Hex files' r.seedPath =
        .ok (seed, utf8 (o.announceUrl ip)) ∧
      (seed.CollisionFree sha256 source → ∀ std p tasks ops,
        (∀ τ ∈ tasks, τ.Shares sha256 std source seed ∧ τ.scheduler.localSpeedMbps < 2 ^ 32) →
        (∀ x ∈ ops, x.2.ShortPex) → ops.length < 2 ^ 32 →
        ∃ b, Machine.run (ByteSwarm.step sha256 std p) (ByteSwarm.start tasks) ops = some b ∧
          ∀ n ∈ b.swarm.nodes, n.task.seed = seed ∧ (∀ r ∈ n.task.results, r.passed = true) ∧
            (∀ c : Nat, n.task.scheduler.chunkStates[c]? = some .complete → n.task.Holds source c) ∧
            ((∀ c ∈ n.task.scheduler.chunkStates, c = .complete) → n.task.file = source)) := by
  obtain ⟨bytes, hip, hb, hcs⟩ := make_eq_ok hmake
  obtain rfl := Option.some.inj (hf.symm.trans hb)
  rw [make_eq hip hf hcs] at hmake
  obtain ⟨rfl, rfl⟩ := Prod.mk.inj (Except.ok.inj hmake)
  refine ⟨by rw [Files.write, if_neg hne, hf], ?_⟩
  have hc' : (FastCDC.scanBuffer sha256 {} source).length < 2 ^ 32 := by
    rw [maxMsgSize] at hc
    omega
  obtain ⟨seed, hread, hs, hchunks⟩ := readSeed_make hl hc' hn hu
  refine ⟨seed, hread, fun hcf std p tasks ops hτ hp hops => ?_⟩
  rw [← hchunks] at hc
  have h₀ : (ByteSwarm.start tasks).Faithful p seed.chunks.length := by
    refine ByteSwarm.faithful_start fun τ hm => ⟨?_, (hτ τ hm).right⟩
    obtain ⟨hst, hseed⟩ := (hτ τ hm).left.started
    rw [hst.initialBitfield, hseed]
  obtain ⟨b, hr, _, hb⟩ := Machine.exists_run_of_counted (Q := fun x => x.2.ShortPex)
    (fun m (b : ByteSwarm Sha256Digest) =>
      b.Faithful p seed.chunks.length ∧ b.swarm.Sharing source seed m)
    (fun m b x hm h hx => ByteSwarm.sharing_step hs hc (Nat.succ_lt_of_lt_pred hm) h hx)
    ⟨h₀, .start hs hcf fun τ hm => (hτ τ hm).left⟩ hp
    (show 0 + ops.length ≤ UInt32.size - 1 by rw [Nat.zero_add]; exact Nat.le_sub_one_of_lt hops)
  have hsafe := hb.trusted.safe
  refine ⟨b, hr, fun n hn => ⟨hb.sameSeed hn, ?_, ?_, hb.file_eq hs hn⟩⟩
  · exact hsafe.verified n hn
  · exact hsafe.complete n hn

-- The first bytes, with zeros for those that are missing.
def headDigest (bytes : List UInt8) : Sha256Digest :=
  ⟨(bytes ++ .replicate 32 0).take 32, by simp⟩

def noteSeed : TSeedFile Sha256Digest where
  fileSize := 3
  config   := {}
  chunks   := [⟨0, 3, headDigest [7, 8, 9]⟩]
  countLt  := by decide

def noteTasks : List (Task Sha256Digest) := [
  Task.cmdSeed .stable noteSeed [7, 8, 9] 4 1000,
  (Task.cmdAdd headDigest .stable noteSeed none 4 1000 [0]).get (by decide +kernel)
]

-- Messages are read in two steps.
def carried : UInt64 × Swarm.Op → List (UInt64 × ByteSwarm.Op)
  | (now, .deliver e peers) => [(now, .arrive e 1000), (now, .read e peers), (now, .read e peers)]
  | (now, op)               => [(now, .swarm op)]

def noteRun : List (UInt64 × ByteSwarm.Op) :=
  Swarm.shareRun.flatMap carried

theorem collisionFree_noteSeed : noteSeed.CollisionFree headDigest [7, 8, 9] := by
  intro e he bytes hl hd
  obtain rfl := List.mem_singleton.mp he
  have hb : bytes.length = 3 := hl
  have ht := congrArg (fun d : Sha256Digest => d.val.take 3) hd
  simpa [headDigest, hb, ChunkEntry.bytes, List.slice, List.take_append, List.take_take,
    List.take_of_length_le (show bytes.length ≤ 32 by omega)] using ht

theorem note_is_distributed :
    ∃ b, Machine.run (ByteSwarm.step headDigest .stable ByteSwarm.duetIdentity)
        (ByteSwarm.start noteTasks) noteRun = some b ∧
      b.swarm.nodes.map (·.task.file) = [[7, 8, 9], [7, 8, 9]] := by
  have hm : make id headDigest "h" (singleFile "f" [7, 8, 9]) { filePath := "f" } = .ok _ :=
    make_eq (by decide) rfl (by decide +kernel)
  obtain ⟨_, seed, hr, hb⟩ := made_file_is_distributed id headDigest (fun _ => "") _ _ _ _ _ [7, 8, 9]
    hm rfl (by decide +kernel) (by decide) (by decide +kernel) (by decide +kernel) (by decide +kernel)
  have he : some seed = some noteSeed :=
    (congrArg (fun x => x.toOption.map Prod.fst) hr).symm.trans (by decide +kernel)
  obtain rfl := Option.some.inj he
  have hτ : ∀ τ ∈ noteTasks, τ.Shares headDigest .stable [7, 8, 9] noteSeed ∧
      τ.scheduler.localSpeedMbps < 2 ^ 32 := by
    refine List.forall_mem_cons.mpr ⟨⟨.cmdSeed, by decide +kernel⟩, List.forall_mem_singleton.mpr ?_⟩
    exact ⟨.cmdAdd (.refl [0]) (Option.some_get _).symm, by decide +kernel⟩
  obtain ⟨b, hrun, hfile⟩ := hb collisionFree_noteSeed .stable ByteSwarm.duetIdentity noteTasks noteRun
    hτ (by simp [noteRun, Swarm.shareRun, Swarm.meetRun, carried, ByteSwarm.Op.ShortPex,
      Swarm.Op.ShortPex, Node.Op.ShortPex, maxPeers]) (by decide +kernel)
  have hc : (Machine.run (ByteSwarm.step headDigest .stable ByteSwarm.duetIdentity)
      (ByteSwarm.start noteTasks) noteRun).map (fun b =>
        b.swarm.nodes.map (·.task.scheduler.chunkStates)) = some [[.complete], [.complete]] := by
    decide +kernel
  refine ⟨b, hrun, ?_⟩
  rw [hrun, Option.map_some, Option.some.injEq] at hc
  have hall : ∀ n ∈ b.swarm.nodes, n.task.file = [7, 8, 9] := by
    intro n hn
    refine (hfile n hn).right.right.right ?_
    have hmem := List.mem_map_of_mem (f := fun n : Node Sha256Digest => n.task.scheduler.chunkStates) hn
    rw [hc] at hmem
    simp only [List.mem_cons, List.not_mem_nil, or_false, or_self] at hmem
    rw [hmem]
    simp
  rw [List.map_congr_left hall, List.map_const', show b.swarm.nodes.length = 2 by
    simpa using congrArg List.length hc]
  rfl

end Made
end ThinBT
