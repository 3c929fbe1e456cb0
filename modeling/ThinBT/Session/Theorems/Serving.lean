import ThinBT.Session.PeerSession
import Mathlib.Data.List.ReduceOption

namespace ThinBT

-- What happens to a session that serves a file. The pool may finish its reads in any order.
inductive Serve
  | request (index begin length : UInt32)
  | cancel (index begin : UInt32)
  | read (k : Nat) (data : List UInt8)
  | post (now : UInt64)
  deriving DecidableEq

def ReadJob.key (j : ReadJob) : UInt32 × UInt32 :=
  (j.index, j.begin)

def Msg.pieceKey : Msg → Option (UInt32 × UInt32)
  | piece index begin _ => some (index, begin)
  | _                   => none

namespace PeerSession

variable {s : PeerSession} {offsets : List UInt64} {ops : List Serve}

def serve (chunkOffsets : List UInt64) (s : PeerSession) : Serve → PeerSession
  | .request index begin length => s.postRead chunkOffsets index begin length
  | .cancel index begin         => s.handleCancelMsg index begin
  | .read k data                => s.finishRead k data
  | .post now                   => s.runPosted now

-- The read that a step posts to the pool.
def job (chunkOffsets : List UInt64) (s : PeerSession) : Serve → Option ReadJob
  | .request index begin length => s.handleRequestMsg chunkOffsets index begin length
  | _                           => none

def jobs (chunkOffsets : List UInt64) : PeerSession → List Serve → List (Option ReadJob)
  | _, []        => []
  | s, op :: ops => s.job chunkOffsets op :: jobs chunkOffsets (s.serve chunkOffsets op) ops

-- The pieces that are still to be sent.
def work (s : PeerSession) : List (UInt32 × UInt32) :=
  s.posted.filterMap Msg.pieceKey ++ s.reads.map ReadJob.key

-- What a session does not change while it serves.
structure Serving (s : PeerSession) : Prop where
  unchoked : s.chokingPeer = false
  isOpen   : s.closed = false

theorem Serving.step (h : s.Serving) : (s.serve offsets op).Serving := by
  cases op
  case request | cancel => exact ⟨h.unchoked, h.isOpen⟩
  case read =>
    simp only [serve, finishRead]
    split <;> exact ⟨h.unchoked, h.isOpen⟩
  case post =>
    simp only [serve, runPosted]
    split <;> exact ⟨h.unchoked, h.isOpen⟩

section Pool

theorem work_finishRead (h : s.closed = false) (hd : data ≠ []) :
    (s.finishRead k data).work.Perm s.work := by
  unfold finishRead
  split
  case h_1 => exact .refl _
  case h_2 j hj =>
    have hp : (j :: s.reads.eraseIdx k).Perm s.reads := by
      obtain ⟨hk, rfl⟩ := List.getElem?_eq_some_iff.mp hj
      exact List.getElem_cons_eraseIdx_perm hk
    have hw : (s.posted ++ (j.reply data).toList).filterMap Msg.pieceKey =
        s.posted.filterMap Msg.pieceKey ++ [j.key] := by
      rw [List.filterMap_append, ReadJob.reply, if_neg hd]
      rfl
    simp only [work, h, Bool.false_eq_true, if_false, hw, List.append_assoc, List.singleton_append]
    exact (hp.map ReadJob.key).append_left _

theorem runPosted_eq (h : s.closed = false) :
    ∃ m : Option Msg, (s.runPosted now).stream = s.stream ++ m.toList ∧
      m.toList.filterMap Msg.pieceKey ++ (s.runPosted now).work = s.work := by
  unfold runPosted
  split
  case h_1 => exact ⟨none, (List.append_nil _).symm, rfl⟩
  case h_2 m ms hm =>
    refine ⟨some m, stream_send h, ?_⟩
    simp only [work, hm, send, Option.toList_some]
    rw [← List.append_assoc, ← List.filterMap_append]
    rfl

-- Every read that is posted becomes a piece.
theorem pieces_of_jobs (h : s.Serving) (hr : ∀ k data, .read k data ∈ ops → data ≠ []) :
    ∃ sent, (Actions.exec (serve offsets) s ops).stream = s.stream ++ sent ∧
      (sent.filterMap Msg.pieceKey ++ (Actions.exec (serve offsets) s ops).work).Perm
        (s.work ++ (s.jobs offsets ops).reduceOption.map ReadJob.key) := by
  induction ops generalizing s
  case nil => exact ⟨[], (List.append_nil _).symm, by simp [jobs]⟩
  case cons op ops hi =>
    have hn : (s.serve offsets op).Serving := h.step
    obtain ⟨sent, hs, hp⟩ := hi hn fun k data hm => hr k data (.tail _ hm)
    rw [Actions.exec_cons]
    cases op
    case request index begin length =>
      refine ⟨sent, hs, hp.trans (.of_eq ?_)⟩
      simp only [work, serve, postRead, jobs, job]
      cases s.handleRequestMsg offsets index begin length <;> simp
    case cancel => exact ⟨sent, hs, hp⟩
    case read k data =>
      have hd := hr k data List.mem_cons_self
      refine ⟨sent, ?_, hp.trans ((work_finishRead h.isOpen hd).append_right _)⟩
      rw [hs]
      simp only [serve, finishRead]
      split <;> rfl
    case post =>
      obtain ⟨m, hs', hw⟩ := runPosted_eq h.isOpen
      refine ⟨m.toList ++ sent, ?_, ?_⟩
      · rw [hs, ← List.append_assoc, ← hs']
        rfl
      · rw [List.filterMap_append, List.append_assoc, ← hw, List.append_assoc]
        exact hp.append_left _

end Pool

section Cancels

theorem handleRequestMsg_isSome (h : s.chokingPeer = false) :
    (s.handleRequestMsg offsets index begin length).isSome ↔ (index, begin) ∉ s.cancelledSet := by
  simp only [handleRequestMsg, h, Bool.false_eq_true, if_false]
  split
  case isTrue hc  => simp [hc]
  case isFalse hc => simp [hc]

theorem mem_cancelledSet_serve :
    x ∈ (s.serve offsets op).cancelledSet ↔ x ∈ s.cancelledSet ∨ op = .cancel x.1 x.2 := by
  cases op
  case cancel index begin =>
    simp only [serve, handleCancelMsg, List.mem_insert_iff, Serve.cancel.injEq]
    rw [or_comm, Prod.ext_iff, eq_comm, @eq_comm _ x.2]
  case request => simp [serve, postRead]
  case read =>
    simp only [serve, finishRead]
    split <;> simp
  case post =>
    simp only [serve, runPosted]
    split <;> simp [send]

-- The set of cancelled sub-blocks only grows.
theorem job_of_request {n : Nat} (h : s.Serving)
    (hn : ops[n]? = some (.request index begin length)) :
    (∃ j, (s.jobs offsets ops)[n]? = some (some j) ∧ j.key = (index, begin)) ↔
      (index, begin) ∉ s.cancelledSet ∧ ∀ m < n, ops[m]? ≠ some (.cancel index begin) := by
  induction ops generalizing s n
  case nil => cases hn
  case cons op ops hi =>
    cases n
    case zero =>
      obtain rfl := Option.some.inj hn
      have hs : (s.handleRequestMsg offsets index begin length).isSome ↔ _ :=
        handleRequestMsg_isSome h.unchoked
      simp only [jobs, job, List.getElem?_cons_zero, Option.some.injEq, Nat.not_lt_zero,
        false_imp_iff, implies_true, and_true, ← hs, Option.isSome_iff_exists]
      refine exists_congr fun j => and_iff_left_of_imp fun hj => ?_
      rw [handleRequestMsg_eq_some hj]
      rfl
    case succ n =>
      have hs : (s.serve offsets op).Serving := h.step
      simp only [jobs, List.getElem?_cons_succ] at hn ⊢
      rw [hi hs hn, mem_cancelledSet_serve, not_or, and_assoc]
      refine and_congr_right fun _ => ?_
      constructor
      case mp =>
        rintro ⟨ho, hm⟩ (_ | m) hlt
        · simpa using ho
        · simpa using hm m (Nat.lt_of_succ_lt_succ hlt)
      case mpr =>
        intro hm
        exact ⟨by simpa using hm 0 (Nat.succ_pos n), fun m hlt => by
          simpa using hm (m + 1) (Nat.succ_lt_succ hlt)⟩

-- The pieces that a session sends are those for the requests that no cancel for the same sub-block
-- came before.
theorem request_is_answered_iff (s : PeerSession) (offsets : List UInt64) (ops : List Serve)
    (hs : s.chokingPeer = false) (ho : s.closed = false) (hw : s.reads = [] ∧ s.posted = [])
    (hr : ∀ k data, .read k data ∈ ops → data ≠ [])
    (hq : (Actions.exec (serve offsets) s ops).reads = [] ∧
      (Actions.exec (serve offsets) s ops).posted = []) :
    (∃ sent, (Actions.exec (serve offsets) s ops).stream = s.stream ++ sent ∧
      (sent.filterMap Msg.pieceKey).Perm ((s.jobs offsets ops).reduceOption.map ReadJob.key)) ∧
    ∀ (n : Nat) (index begin length : UInt32), ops[n]? = some (.request index begin length) →
      ((∃ j, (s.jobs offsets ops)[n]? = some (some j) ∧ j.key = (index, begin)) ↔
        (index, begin) ∉ s.cancelledSet ∧ ∀ m < n, ops[m]? ≠ some (.cancel index begin)) := by
  have h : s.Serving := ⟨hs, ho⟩
  refine ⟨?_, fun n index begin length hn => job_of_request h hn⟩
  obtain ⟨sent, hst, hp⟩ : ∃ sent, (Actions.exec (serve offsets) s ops).stream = s.stream ++ sent ∧ _ :=
    pieces_of_jobs h hr
  refine ⟨sent, hst, ?_⟩
  simpa [work, hw, hq] using hp

-- Two sub-blocks are requested and read in the other order, and one of them is cancelled afterwards.
theorem two_requests_are_answered :
    ∃ sent, (Actions.exec (serve [0]) { slotId := 0, chokingPeer := false }
        [.request 0 0 16384, .request 0 16384 16384, .read 1 [7], .read 0 [6], .cancel 0 0, .post 0,
          .post 1]).stream = [] ++ sent ∧
      (sent.filterMap Msg.pieceKey).Perm [(0, 0), (0, 16384)] :=
  (request_is_answered_iff { slotId := 0, chokingPeer := false } [0]
    [.request 0 0 16384, .request 0 16384 16384, .read 1 [7], .read 0 [6], .cancel 0 0, .post 0,
      .post 1]
    rfl rfl ⟨rfl, rfl⟩ (by grind) ⟨rfl, rfl⟩).left

-- Nothing is left to be done for a sub-block that was cancelled and then requested again.
theorem cancelled_request_is_ignored :
    let s := Actions.exec (serve [0]) { slotId := 0, chokingPeer := false }
      [.cancel 0 0, .request 0 0 16384]
    s.reads = [] ∧ s.posted = [] ∧ s.stream = [] :=
  ⟨rfl, rfl, rfl⟩

end Cancels
end PeerSession
end ThinBT
