import ThinBT.Util.SortedSet
import ThinBT.Util.SortedMap
import ThinBT.Util.Lists
import ThinBT.Util.Actions
import Mathlib.Data.Nat.Basic

namespace ThinBT

-- SUB_BLOCK_SIZE
def subBlockSize : Nat :=
  16 * 1024

structure PeerSlot where
  slotId              : Nat
  pendingRequests     : Nat := 0
  consecutiveTimeouts : Nat := 0
  rttUs               : UInt32 := 0
  linkSpeedMbps       : Nat := 0
  linkSpeedReported   : Nat := 0
  pipelineCap         : Nat := 128
  amChoking           : Bool := true
  remoteBitfield      : List Bool := []
  -- The begin offsets that this peer is currently downloading, for each chunk.
  activeSubBlocks     : SortedMap Nat (SortedSet Nat) := ∅
  deriving DecidableEq, Repr

namespace PeerSlot

-- `chunk_idx < remote_bitfield.size() && remote_bitfield[chunk_idx]`
def has (p : PeerSlot) (c : Nat) : Bool :=
  p.remoteBitfield.getD c false

def haveCount (p : PeerSlot) : Nat :=
  p.remoteBitfield.count true

def isFullSource (p : PeerSlot) (totalChunks : Nat) : Bool :=
  0 < totalChunks && totalChunks ≤ p.remoteBitfield.length && totalChunks ≤ p.haveCount

-- The hard filter that `select_best_peer` and `find_redundant_peers` apply to a peer.
def eligible (p : PeerSlot) (c : Nat) : Bool :=
  p.has c && !p.amChoking && p.consecutiveTimeouts < 3

def begins (p : PeerSlot) (c : Nat) : SortedSet Nat :=
  (p.activeSubBlocks.find? c).getD ∅

-- The total number of begin offsets in `active_sub_blocks`.
def activeTotal (p : PeerSlot) : Nat :=
  p.activeSubBlocks.total SortedSet.size

-- `pending_requests++; active_sub_blocks[chunk_idx].insert(begin);`
def track (p : PeerSlot) (c b : Nat) : PeerSlot :=
  { p with
    pendingRequests := p.pendingRequests + 1
    activeSubBlocks := p.activeSubBlocks.upsert c ((p.begins c).insert b) }

-- `it->second.erase(begin); if (it->second.empty()) active_sub_blocks.erase(it);`
def untrack (p : PeerSlot) (c b : Nat) : PeerSlot :=
  match p.activeSubBlocks.find? c with
  | none   => p
  | some s =>
    { p with activeSubBlocks :=
        if (s.erase b).size = 0 then p.activeSubBlocks.erase c
        else p.activeSubBlocks.upsert c (s.erase b) }

-- `it->second.erase(begin);` without the cleanup of an empty set.
def drop (p : PeerSlot) (c b : Nat) : PeerSlot :=
  { p with activeSubBlocks := p.activeSubBlocks.upsert c ((p.begins c).erase b) }

-- `if (pending_requests > 0) pending_requests--;`
def decPending (p : PeerSlot) : PeerSlot :=
  { p with pendingRequests := p.pendingRequests - 1 }

-- The loop body of `send_cancel_for_chunk`.
def cancelChunk (p : PeerSlot) (c excludeSlot : Nat) : PeerSlot :=
  if p.slotId = excludeSlot ∨ (p.begins c).size = 0 then p
  else
    { p with
      pendingRequests := p.pendingRequests - (p.begins c).size
      activeSubBlocks := p.activeSubBlocks.erase c }

end PeerSlot

def hasPartialSources (peers : List PeerSlot) (totalChunks : Nat) : Bool :=
  peers.any fun p => 0 < p.haveCount && p.haveCount < totalChunks

inductive SchedulerPhase
  | normal
  | endgame
  | done
  deriving DecidableEq, Repr

inductive ChunkState
  | missing
  | requested
  | downloading
  | complete
  deriving DecidableEq, Repr

structure Scheduler where
  chunkStates       : List ChunkState
  chunkSubBlocks    : List Nat := []
  availability      : List UInt32
  activeChunks      : List Nat
  chunkSubDone      : List (List Bool)
  chunkSubReq       : List (List Bool)
  chunkSubReqTime   : List (List UInt64)
  chunkSubDoneCount : List Nat
  chunkSubReqCount  : List Nat
  peerSlots         : List PeerSlot := []
  phase             : SchedulerPhase := .normal
  missingCount      : UInt32
  localSpeedMbps    : Nat
  -- Whether `cancel_request_` and `not_interested_issuer_` have been installed.
  cancelIssuer        : Bool := false
  notInterestedIssuer : Bool := false
  deriving DecidableEq, Repr

namespace Scheduler

def endgameThreshold : UInt32 :=
  128

def maxEndgameChunks : Nat :=
  32

def maxRedundantPeers : Nat :=
  2

def init (totalChunks : UInt32) (localSpeedMbps : Nat) : Scheduler where
  chunkStates       := .replicate totalChunks.toNat .missing
  availability      := .replicate totalChunks.toNat 0
  activeChunks      := .range totalChunks.toNat
  chunkSubDone      := .replicate totalChunks.toNat []
  chunkSubReq       := .replicate totalChunks.toNat []
  chunkSubReqTime   := .replicate totalChunks.toNat []
  chunkSubDoneCount := .replicate totalChunks.toNat 0
  chunkSubReqCount  := .replicate totalChunks.toNat 0
  missingCount      := totalChunks
  localSpeedMbps    := localSpeedMbps

-- `(size + SUB_BLOCK_SIZE - 1) / SUB_BLOCK_SIZE` on `uint32_t`.
def subBlockCount (size : UInt32) : Nat :=
  ((size + UInt32.ofNat subBlockSize - 1) / UInt32.ofNat subBlockSize).toNat

def assignRows (rows : List (List α)) (counts : List Nat) (v : α) : List (List α) :=
  rows.mapIdx fun i row => if i < counts.length then .replicate (counts.getD i 0) v else row

def setChunkSizes (σ : Scheduler) (sizes : List UInt32) : Scheduler :=
  let counts := sizes.map subBlockCount
  { σ with
    chunkSubBlocks  := counts
    chunkSubDone    := assignRows σ.chunkSubDone counts false
    chunkSubReq     := assignRows σ.chunkSubReq counts false
    chunkSubReqTime := assignRows σ.chunkSubReqTime counts 0 }

def totalChunks (σ : Scheduler) : Nat :=
  σ.chunkStates.length

-- `chunk_idx >= chunk_states_.size() || chunk_states_[chunk_idx] == ChunkState::COMPLETE`
def closed (σ : Scheduler) (c : Nat) : Bool :=
  σ.chunkStates.getD c .complete = .complete

-- `chunk_idx < chunk_sub_blocks_.size() ? chunk_sub_blocks_[chunk_idx] : 0`
def subTotal (σ : Scheduler) (c : Nat) : Nat :=
  σ.chunkSubBlocks.getD c 0

def subDone (σ : Scheduler) (c s : Nat) : Bool :=
  σ.chunkSubDone.entry false c s

def subReq (σ : Scheduler) (c s : Nat) : Bool :=
  σ.chunkSubReq.entry false c s

def subReqTime (σ : Scheduler) (c s : Nat) : UInt64 :=
  σ.chunkSubReqTime.entry 0 c s

def subReqCount (σ : Scheduler) (c : Nat) : Nat :=
  σ.chunkSubReqCount.getD c 0

-- The position of the element that `peer_slot(id)` points to.
def peerSlot (σ : Scheduler) (slot : Nat) : Option Nat :=
  σ.peerSlots.findIdx? (·.slotId = slot)

def modifyPeer (σ : Scheduler) (i : Nat) (f : PeerSlot → PeerSlot) : Scheduler :=
  { σ with peerSlots := σ.peerSlots.modify i f }

-- `chunk_sub_req_[chunk_idx][sub_idx] = true; chunk_sub_req_time_[chunk_idx][sub_idx] = now_ms;`
def markRequested (σ : Scheduler) (c s : Nat) (now : UInt64) : Scheduler :=
  { σ with
    chunkSubReq     := σ.chunkSubReq.setEntry c s true
    chunkSubReqTime := σ.chunkSubReqTime.setEntry c s now }

def clearRequested (σ : Scheduler) (c s : Nat) : Scheduler :=
  { σ with
    chunkSubReq      := σ.chunkSubReq.setEntry c s false
    chunkSubReqCount := σ.chunkSubReqCount.modify c (· - 1) }

def clearReqTime (σ : Scheduler) (c s : Nat) : Scheduler :=
  { σ with chunkSubReqTime := σ.chunkSubReqTime.setEntry c s 0 }

def markDone (σ : Scheduler) (c s : Nat) : Scheduler :=
  if s < σ.chunkSubDone.rowLength c ∧ ¬σ.subDone c s then
    { σ with
      chunkSubDone      := σ.chunkSubDone.setEntry c s true
      chunkSubDoneCount := σ.chunkSubDoneCount.modify c (· + 1) }
  else σ

def sendCancelForChunk (σ : Scheduler) (c excludeSlot : Nat) : Scheduler :=
  if σ.cancelIssuer then { σ with peerSlots := σ.peerSlots.map (·.cancelChunk c excludeSlot) } else σ

-- One begin offset of the dead peer in `on_peer_removed`.
def release (c : Nat) (σ : Scheduler) (b : Nat) : Scheduler :=
  if σ.subReq c (b / subBlockSize) then
    (σ.clearRequested c (b / subBlockSize)).clearReqTime c (b / subBlockSize)
  else σ

-- One entry of the dead peer's `active_sub_blocks` in `on_peer_removed`.
def releaseChunk (σ : Scheduler) (e : Nat × SortedSet Nat) : Scheduler :=
  let σ := e.2.elems.foldl (release e.1) σ
  if ¬σ.closed e.1 ∧ e.1 < σ.chunkSubReqCount.length ∧ σ.subReqCount e.1 = 0 then
    { σ with chunkStates := σ.chunkStates.set e.1 .missing }
  else σ

def withdraw (σ : Scheduler) (p : PeerSlot) : Scheduler :=
  { σ with availability := σ.availability.mapIdx fun i n => if p.has i then n - 1 else n }

def removePeer (σ : Scheduler) (slot : Nat) : Scheduler :=
  let σ :=
    match σ.peerSlots.find? (·.slotId = slot) with
    | none   => σ
    | some p => p.activeSubBlocks.entries.foldl releaseChunk (σ.withdraw p)
  { σ with peerSlots := σ.peerSlots.filter (·.slotId ≠ slot) }

-- The elementary updates that the methods of the scheduler are made of. Peers are given by their
-- position in `peer_slots_`.
inductive Action
  | setCancelIssuer
  | setNotInterestedIssuer
  | shuffle (order : List Nat)
  | addPeer (slot speed : Nat)
  | setSpeed (i speed : Nat)
  | setChoking (i : Nat) (choking : Bool)
  | setEval (i cap timeouts : Nat) (rtt : UInt32)
  | removePeer (slot : Nat)
  | setBitfield (i : Nat) (bf : List Bool)
  | recordHave (i c : Nat)
  | notInterested (slot : Nat)
  -- The bookkeeping of `dec_peer_pending` for an arrived piece.
  | arrive (i c b : Nat)
  -- `chunk_states_[chunk_idx] = ChunkState::DOWNLOADING`
  | beginDownload (c : Nat)
  -- A sub-block is requested by `try_schedule_chunk_on_peer`.
  | assign (i c s : Nat) (now : UInt64)
  -- A finished sub-block is dropped from a source by `rebalance_seed_requests_for_peer`.
  | dropDone (j c b : Nat)
  -- A sub-block is moved from source `j` to peer `i` by `rebalance_seed_requests_for_peer`.
  | move (j i c b : Nat) (now : UInt64)
  -- A hungry sub-block is requested from the redundant peers `is` by `tick_endgame`.
  | redundant (c s : Nat) (is : List Nat)
  | complete (c winner : Nat)
  | settle (announce : Bool)
  | verifyFailed (c : Nat)
  | timeout (c b : Nat)
  | markComplete (c : Nat)
  deriving DecidableEq, Repr

def settlePhase (σ : Scheduler) : Scheduler :=
  { σ with phase :=
      if σ.missingCount = 0 then .done
      else if σ.missingCount < endgameThreshold then .endgame
      else σ.phase }

def apply (σ : Scheduler) : Action → Scheduler
  | .setCancelIssuer         => { σ with cancelIssuer := true }
  | .setNotInterestedIssuer  => { σ with notInterestedIssuer := true }
  | .shuffle order           => { σ with activeChunks := order }
  | .addPeer slot speed      =>
    { σ with peerSlots := σ.peerSlots ++ [{
        slotId            := slot
        linkSpeedReported := speed
        linkSpeedMbps     := speed
        remoteBitfield    := .replicate σ.availability.length false }] }
  | .setSpeed i speed        =>
    σ.modifyPeer i fun p => { p with linkSpeedReported := speed, linkSpeedMbps := speed }
  | .setChoking i choking    => σ.modifyPeer i fun p => { p with amChoking := choking }
  | .setEval i cap timeouts rtt =>
    σ.modifyPeer i fun p =>
      { p with pipelineCap := cap, consecutiveTimeouts := timeouts, rttUs := rtt }
  | .removePeer slot         => σ.removePeer slot
  | .setBitfield i bf        =>
    { σ.modifyPeer i (fun p => { p with remoteBitfield := bf }) with
      availability := σ.availability.mapIdx fun k n => if bf.getD k false then n + 1 else n }
  | .recordHave i c          =>
    { σ.modifyPeer i (fun p => { p with remoteBitfield := p.remoteBitfield.set c true }) with
      availability := σ.availability.modify c (· + 1) }
  | .notInterested _         => σ
  | .arrive i c b            =>
    (σ.markDone c (b / subBlockSize)).modifyPeer i fun p => p.decPending.untrack c b
  | .beginDownload c         => { σ with chunkStates := σ.chunkStates.set c .downloading }
  | .assign i c s now        =>
    { (σ.markRequested c s now).modifyPeer i (·.track c (s * subBlockSize)) with
      chunkSubReqCount := σ.chunkSubReqCount.modify c (· + 1) }
  | .dropDone j c b          => σ.modifyPeer j (·.drop c b)
  | .move j i c b now        =>
    (σ.modifyPeer j fun p => p.decPending.untrack c b)
      |>.markRequested c (b / subBlockSize) now
      |>.modifyPeer i (·.track c b)
  | .redundant c s is        =>
    is.foldl (fun σ i => σ.modifyPeer i (·.track c (s * subBlockSize))) σ
  | .complete c winner       =>
    let σ := { σ with
      chunkStates  := σ.chunkStates.set c .complete
      missingCount := σ.missingCount - 1
      activeChunks := σ.activeChunks.swapRemove c }
    { σ.sendCancelForChunk c winner with chunkSubReqCount := σ.chunkSubReqCount.set c 0 }
  | .settle _                => σ.settlePhase
  | .verifyFailed c          =>
    { σ with
      chunkStates       := σ.chunkStates.set c .missing
      chunkSubReq       := σ.chunkSubReq.modify c (·.map fun _ => false)
      chunkSubReqTime   := σ.chunkSubReqTime.modify c (·.map fun _ => 0)
      chunkSubDone      := σ.chunkSubDone.modify c (·.map fun _ => false)
      chunkSubDoneCount := σ.chunkSubDoneCount.set c 0
      chunkSubReqCount  := σ.chunkSubReqCount.set c 0
      activeChunks      := if c ∈ σ.activeChunks then σ.activeChunks else σ.activeChunks ++ [c] }
  | .timeout c b             =>
    let s := b / subBlockSize
    (if σ.subReq c s then σ.clearRequested c s else σ).clearReqTime c s
  | .markComplete c          =>
    { σ with
      missingCount     :=
        if σ.chunkStates.getD c .complete = .missing then σ.missingCount - 1 else σ.missingCount
      chunkStates      := σ.chunkStates.set c .complete
      activeChunks     := σ.activeChunks.swapRemove c
      chunkSubReqCount := σ.chunkSubReqCount.set c 0 }

-- The callbacks of the scheduler.
inductive Call
  | issueRequest (slot c b len : Nat)
  | cancelRequest (slot c b len : Nat)
  | broadcastHave (c : Nat)
  | broadcastNotInterested
  | notInterested (slot : Nat)
  deriving DecidableEq, Repr

def slotIdAt (σ : Scheduler) (i : Nat) : Option Nat :=
  σ.peerSlots[i]?.map (·.slotId)

def requestTo (σ : Scheduler) (i c b : Nat) : List Call :=
  (σ.slotIdAt i).toList.map (.issueRequest · c b subBlockSize)

def cancelFrom (σ : Scheduler) (j c b : Nat) : List Call :=
  if σ.cancelIssuer then (σ.slotIdAt j).toList.map (.cancelRequest · c b subBlockSize) else []

def cancelsForChunk (σ : Scheduler) (c excludeSlot : Nat) : List Call :=
  if σ.cancelIssuer then
    (σ.peerSlots.filter (·.slotId ≠ excludeSlot)).flatMap fun p =>
      (p.begins c).elems.map (.cancelRequest p.slotId c · subBlockSize)
  else []

-- The callbacks that an action invokes.
def calls (σ : Scheduler) : Action → List Call
  | .assign i c s _    => σ.requestTo i c (s * subBlockSize)
  | .move j i c b _    => σ.cancelFrom j c b ++ σ.requestTo i c b
  | .redundant c s is  => is.flatMap (σ.requestTo · c (s * subBlockSize))
  | .complete c winner => σ.cancelsForChunk c winner ++ [.broadcastHave c]
  | .settle announce   => if announce ∧ σ.missingCount = 0 then [.broadcastNotInterested] else []
  | .notInterested s   => [.notInterested s]
  | _                  => []

abbrev exec : Scheduler → List Action → Scheduler :=
  Actions.exec apply

end Scheduler
end ThinBT
