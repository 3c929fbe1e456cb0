import ThinBT.Seed.Theorems.Partition
import ThinBT.Task.Theorems.Start
import ThinBT.Task.Theorems.Reuse

namespace ThinBT

-- The chunks that are complete when a download starts.
theorem Scheduler.closed_opening {b : Prop} [Decidable b] {std : StdSort} (hc : c < total.toNat) :
    (run std (start total speed sizes) (Task.openingOps b bf order)).closed c =
      (decide b && bf.getD c false) := by
  have plain {σ : Scheduler} : (run std σ [.setCancelIssuer, .setNotInterestedIssuer]).closed c =
      σ.closed c := rfl
  have hn : ¬(start total speed sizes).closed c := not_closed_start hc
  have first : (next std (start total speed sizes) (.randomizePieceOrder order)).closed c = false :=
    eq_false_of_ne_true hn
  have ht : c < (next std (start total speed sizes) (.randomizePieceOrder order)).totalChunks := by
    rw [next, Actions.after, totalChunks_exec, totalChunks_start]
    exact hc
  rw [Task.openingOps, Task.resumeOps, run, Actions.exec_cons, Actions.exec_append, ← run, plain]
  by_cases hb : b
  case pos =>
    rw [if_pos hb, decide_eq_true hb, Bool.true_and]
    refine (closed_markAllComplete ht).trans ?_
    rw [first, Bool.false_or]
  case neg =>
    rw [if_neg hb, decide_eq_false hb, Bool.false_and]
    exact first

namespace Task

variable {δ : Type} {seed : TSeedFile δ} {τ : Task δ}

theorem bytesOf_eq {bf : List Bool} :
    bytesOf seed bf = .ofNat (seed.bytesIn (bf.getD · false)) := by
  rw [bytesOf, List.foldl_add_eq_ofNat, UInt64.zero_add, TSeedFile.bytesIn_getD]
  rfl

-- The chunks that a download starts with are complete, and their bytes are counted.
structure Credited (τ : Task δ) : Prop where
  closed : ∀ c < τ.seed.chunks.length, τ.scheduler.closed c = τ.initialBitfield.getD c false
  bytes  : τ.bytesDone = .ofNat (τ.seed.bytesIn (τ.initialBitfield.getD · false))

theorem and_eq_right_of_bit {b : Prop} [Decidable b] {x : Bool} (h : ¬b → x = false) :
    (decide b && x) = x := by
  by_cases hb : b
  case pos => rw [decide_eq_true hb, Bool.true_and]
  case neg => rw [decide_eq_false hb, Bool.false_and, h hb]

theorem getD_set_self {l : List Bool} {i : Nat} (h : l[i]? = some b) (c : Nat) :
    (l.set i true).getD c false = (l.getD c false || decide (c ∈ [i])) := by
  have hi := (List.getElem?_eq_some_iff.mp h).choose
  rw [List.getD_eq_getElem?_getD, List.getD_eq_getElem?_getD]
  by_cases hc : i = c
  case pos => subst hc; simp [hi]
  case neg => simp [List.getElem?_set_ne hc, Ne.symm hc]

-- The counters of the loop of `cmd_update` with so many chunks to come.
structure Tallied (seed : TSeedFile δ) (n : Nat) (s : Reuse δ) : Prop where
  matched      : s.matched.toNat + n < 2 ^ 32
  unmatched    : s.matched = 0 → ∀ c, s.initBf.getD c false = false
  matchedBytes : s.matchedBytes = .ofNat (seed.bytesIn (s.initBf.getD · false))

section Reuse

variable [DecidableEq δ] {sha256 : List UInt8 → δ}
variable {oldPath newPath : String} {clones : Nat → UInt64 → Bool}

theorem Tallied.reuseChunk {s : Reuse δ} {x : ChunkEntry δ × Nat} (h : Tallied seed (n + 1) s)
    (hx : seed.chunks[x.2]? = some x.1) (hb : s.initBf[x.2]? = some false) :
    Tallied seed n (reuseChunk oldPath newPath clones s x) := by
  cases hc : cloned oldPath clones s x
  case none =>
    rw [reuseChunk_of_none hc]
    exact ⟨by have := h.matched; omega, h.unmatched, h.matchedBytes⟩
  case some y =>
    have hs : Clones newPath s x _ (Task.reuseChunk oldPath newPath clones s x) :=
      reuseChunk_of_some hc
    have hm := h.matched
    have h₁ : (s.matched + 1).toNat = s.matched.toNat + 1 := by
      rw [UInt32.toNat_add, UInt32.toNat_one]
      omega
    refine ⟨by rw [hs.matched]; omega, fun hz => ?_, ?_⟩
    · rw [hs.matched] at hz
      rw [hz] at h₁
      cases h₁
    · have hn : s.initBf.getD x.2 false = false := by
        rw [List.getD_eq_getElem?_getD, hb, Option.getD_some]
      have hlt := (List.getElem?_eq_some_iff.mp hx).choose
      rw [hs.matchedBytes, hs.initBf, h.matchedBytes, funext (getD_set_self hb)]
      rw [TSeedFile.bytesIn_or_mem (List.nodup_singleton _) fun c hc =>
        List.mem_singleton.mp hc ▸ ⟨hlt, hn⟩]
      rw [List.map_singleton, List.sum_singleton, TSeedFile.sizeAt_eq hx, UInt64.ofNat_add,
        UInt64.ofNat_uInt32ToNat]

theorem Tallied.exec {s : Reuse δ} {xs : List (ChunkEntry δ × Nat)}
    (h : Tallied seed xs.length s) (hx : ∀ x ∈ xs, seed.chunks[x.2]? = some x.1)
    (hp : xs.Pairwise fun x y => y.2 ≠ x.2) (hb : ∀ x ∈ xs, s.initBf[x.2]? = some false) :
    Tallied seed 0 (Actions.exec (Task.reuseChunk oldPath newPath clones) s xs) := by
  induction xs generalizing s
  case nil => exact h
  case cons x xs hi =>
    have ⟨hx', hxs⟩ := List.forall_mem_cons.mp hx
    have ⟨hp', hps⟩ := List.pairwise_cons.mp hp
    have ⟨hb', hbs⟩ := List.forall_mem_cons.mp hb
    refine hi (h.reuseChunk hx' hb') hxs hps fun y hy => ?_
    rw [getElem?_initBf_reuseChunk (Ne.symm (hp' y hy))]
    exact hbs y hy

variable {oldSeed : Option (TSeedFile δ)} {files : Files}

theorem tallied_reuse :
    Tallied seed 0 (reuse sha256 seed newPath oldSeed oldPath files clones) := by
  have hz (c : Nat) :
      (reuseStart sha256 seed newPath oldSeed oldPath files).initBf.getD c false = false := by
    rw [reuseStart, List.getD_eq_getElem?_getD, List.getElem?_map]
    cases seed.chunks[c]? <;> rfl
  have hl : (reuseChunks seed oldPath).length ≤ seed.chunks.length := by
    unfold reuseChunks
    split <;> simp
  refine Tallied.exec ⟨?_, fun _ => hz, ?_⟩ (fun x => mem_reuseChunks) ?_ fun x hx => ?_
  · exact (Nat.zero_add _).trans_lt (hl.trans_lt seed.countLt)
  · rw [funext hz, TSeedFile.bytesIn_eq_sum]
    simp [reuseStart]
  · unfold reuseChunks
    split
    case isTrue => exact .nil
    case isFalse =>
      rw [List.pairwise_iff_getElem]
      intro i j hi hj hij
      simp only [List.getElem_zipIdx, Nat.zero_add]
      exact Nat.ne_of_gt hij
  · rw [reuseStart, List.getElem?_map, mem_reuseChunks hx, Option.map_some]

end Reuse

section Start

variable [DecidableEq δ] {sha256 : List UInt8 → δ} {std : StdSort}

namespace Downloads

theorem state (h : Downloads sha256 std τ) : τ.state = .downloading := by
  cases h
  case cmdAdd h =>
    obtain ⟨w, _, h⟩ := Option.bind_eq_some_iff.mp h
    obtain ⟨as, _, h⟩ := Option.bind_eq_some_iff.mp h
    cases h
    rfl
  case cmdUpdate h => exact (cmdUpdate_spec h).right.state

theorem credited (h : Downloads sha256 std τ) (hp : τ.seed.Partitioned) : τ.Credited := by
  cases h
  case cmdAdd h =>
    obtain ⟨w, _, h⟩ := Option.bind_eq_some_iff.mp h
    obtain ⟨as, _, h⟩ := Option.bind_eq_some_iff.mp h
    cases h
    refine ⟨fun c hc => ?_, bytesOf_eq⟩
    refine (Scheduler.closed_opening (TSeedFile.toNat_chunkCount ▸ hc)).trans ?_
    refine and_eq_right_of_bit fun hn => ?_
    rw [bytesOf_eq, UInt64.lt_iff_toNat_lt, hp.toNat_bytesIn] at hn
    exact hp.bytesIn_eq_zero_iff.mp (Nat.eq_zero_of_not_pos hn) c hc
  case cmdUpdate h =>
    obtain ⟨rfl, hu⟩ := cmdUpdate_spec h
    refine ⟨fun c hc => ?_, by rw [hu.bytesDone, hu.bitfield]; exact tallied_reuse.matchedBytes⟩
    rw [hu.scheduler, hu.bitfield]
    refine (Scheduler.closed_opening (TSeedFile.toNat_chunkCount ▸ hc)).trans ?_
    refine and_eq_right_of_bit fun hn => tallied_reuse.unmatched ?_ c
    exact UInt32.toNat_inj.mp (Nat.eq_zero_of_not_pos hn)

end Downloads

end Start

end Task

end ThinBT
