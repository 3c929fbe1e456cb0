import ThinBT.Scheduler.State
import Mathlib.Data.List.Sort
import Mathlib.Data.Prod.Lex

namespace ThinBT

-- `std::sort` by a key. The order of elements with equal keys is unspecified.
structure StdSort where
  sort   : (Nat → Nat) → List Nat → List Nat
  perm   : ∀ key l, (sort key l).Perm l
  sorted : ∀ key l, (sort key l).Pairwise (key · ≤ key ·)

-- One such sort: it keeps the order of elements with equal keys.
def StdSort.stable : StdSort where
  sort key l   := l.insertionSort (key · ≤ key ·)
  perm _ l     := List.perm_insertionSort _ l
  sorted _ l   := List.pairwise_insertionSort _ l

structure ChunkCompleteMsg where
  chunkIdx        : Nat
  winningPeerSlot : Nat
  deriving DecidableEq, Repr

namespace Scheduler

def uint32Max : Nat :=
  4294967295

def intMin : Int :=
  -2147483648

def sizeMax : Nat :=
  18446744073709551615

def score (σ : Scheduler) (p : PeerSlot) : Int :=
  (if 1000 ≤ σ.localSpeedMbps ∧ 1000 ≤ p.linkSpeedMbps then 10 else 0)
    + (min 50 ((p.remoteBitfield.length - p.haveCount) / 64) : Nat)
    - (p.pendingRequests : Int) * 6
    - p.rttUs.toInt32.toInt.tdiv 2000

-- The loop variables of `select_best_peer`.
structure Best where
  score     : Int := intMin
  slot      : Nat := 0
  haveCount : Nat := sizeMax

def better (σ : Scheduler) (c : Nat) (best : Best) (p : PeerSlot) : Best :=
  if ¬p.eligible c then best
  else if best.score < σ.score p ∨ (σ.score p = best.score ∧ p.haveCount < best.haveCount) then
    { score := σ.score p, slot := p.slotId, haveCount := p.haveCount }
  else best

def selectBestPeer (σ : Scheduler) (c : Nat) : Option Nat :=
  let best := σ.peerSlots.foldl (σ.better c) {}
  if best.score = intMin then none else some best.slot

def redundantCandidate (c excludeSlot : Nat) (p : PeerSlot) : Bool :=
  p.slotId ≠ excludeSlot && p.eligible c && (p.begins c).size = 0

-- Candidates are sorted as pairs, first by their load and then by their slot.
def findRedundantPeers (σ : Scheduler) (c excludeSlot count : Nat) : List Nat :=
  let candidates := σ.peerSlots.filter (redundantCandidate c excludeSlot)
  let sorted := (candidates.map fun p => toLex (p.pendingRequests, p.slotId)).insertionSort (· ≤ ·)
  (sorted.take count).map fun x => (ofLex x).2

-- The loop over the sub-blocks of a chunk in `try_schedule_chunk_on_peer`.
def assignLoop (i c : Nat) (now : UInt64) (cap : Nat) : List Nat → Scheduler → List Action
  | [], _      => []
  | s :: ss, σ =>
    match σ.peerSlots[i]? with
    | none   => []
    | some p =>
      if cap ≤ p.pendingRequests then []
      else if σ.subReq c s then assignLoop i c now cap ss σ
      else .assign i c s now :: assignLoop i c now cap ss (σ.apply (.assign i c s now))

def tryScheduleChunkOnPeer (i c : Nat) (now : UInt64) (cap : Nat) (σ : Scheduler) : List Action :=
  match σ.peerSlots[i]? with
  | none   => []
  | some p =>
    if σ.closed c ∨ ¬p.eligible c then []
    else if σ.selectBestPeer c ≠ some p.slotId then []
    else if σ.subTotal c = 0 then []
    else
      .beginDownload c ::
        assignLoop i c now cap (.range (σ.subTotal c)) (σ.apply (.beginDownload c))

def effectiveCap (σ : Scheduler) (p : PeerSlot) : Nat :=
  if p.isFullSource σ.totalChunks ∧ hasPartialSources σ.peerSlots σ.totalChunks then
    min p.pipelineCap 32
  else p.pipelineCap

def availabilityOf (σ : Scheduler) (c : Nat) : UInt32 :=
  σ.availability.getD c 0

-- The list `pending` of `try_schedule_for_peer`: rarest chunks first, ties in their previous order.
def pendingChunks (σ : Scheduler) (p : PeerSlot) : List Nat :=
  (σ.activeChunks.filter fun c => !σ.closed c && p.has c && σ.subReqCount c < σ.subTotal c)
    |>.insertionSort fun c₁ c₂ => σ.availabilityOf c₁ ≤ σ.availabilityOf c₂

-- The loop over `pending` in `try_schedule_for_peer`.
def scheduleLoop (i : Nat) (now : UInt64) (cap : Nat) : List Nat → Scheduler → List Action
  | [], _      => []
  | c :: cs, σ =>
    match σ.peerSlots[i]? with
    | none   => []
    | some p =>
      if cap ≤ p.pendingRequests then []
      else
        let as := tryScheduleChunkOnPeer i c now cap σ
        as ++ scheduleLoop i now cap cs (σ.exec as)

def tryScheduleForPeer (i : Nat) (now : UInt64) (σ : Scheduler) : List Action :=
  match σ.peerSlots[i]? with
  | none   => []
  | some p =>
    if σ.effectiveCap p ≤ p.pendingRequests then []
    else scheduleLoop i now (σ.effectiveCap p) (σ.pendingChunks p) σ

def Action.isMove : Action → Bool
  | .move .. => true
  | _        => false

-- The loop over the sources of a chunk in `rebalance_seed_requests_for_peer`.
def rebalanceSources (i c : Nat) (now : UInt64) : List Nat → Scheduler → List Action
  | [], _      => []
  | j :: js, σ =>
    match σ.peerSlots[i]?, σ.peerSlots[j]? with
    | some peer, some source =>
      if source.slotId = peer.slotId ∨ ¬source.isFullSource σ.totalChunks then
        rebalanceSources i c now js σ
      else
        match (source.begins c).first? with
        | none   => rebalanceSources i c now js σ
        | some b =>
          if σ.subDone c (b / subBlockSize) then
            .dropDone j c b :: rebalanceSources i c now js (σ.apply (.dropDone j c b))
          else [.move j i c b now]
    | _, _ => []

-- The loop over `active_chunks_` in `rebalance_seed_requests_for_peer`, left after a move.
def rebalanceChunks (i : Nat) (now : UInt64) : List Nat → Scheduler → List Action
  | [], _      => []
  | c :: cs, σ =>
    match σ.peerSlots[i]? with
    | none   => []
    | some p =>
      if p.pipelineCap ≤ p.pendingRequests then []
      else if ¬p.has c ∨ σ.closed c then rebalanceChunks i now cs σ
      else
        let as := rebalanceSources i c now (.range σ.peerSlots.length) σ
        if as.any Action.isMove then as else as ++ rebalanceChunks i now cs (σ.exec as)

def rebalanceLoop (i : Nat) (now : UInt64) : Nat → Scheduler → List Action
  | 0, _         => []
  | moves + 1, σ =>
    match σ.peerSlots[i]? with
    | none   => []
    | some p =>
      if p.pipelineCap ≤ p.pendingRequests then []
      else
        let as := rebalanceChunks i now σ.activeChunks σ
        if as.any Action.isMove then as ++ rebalanceLoop i now moves (σ.exec as) else as

def rebalanceSeedRequestsForPeer (i : Nat) (now : UInt64) (maxMoves : Nat) (σ : Scheduler) :
    List Action :=
  match σ.peerSlots[i]? with
  | none   => []
  | some p => if p.isFullSource σ.totalChunks then [] else rebalanceLoop i now maxMoves σ

-- Runs a method for each element of a list.
def forEach (f : Nat → Scheduler → List Action) : List Nat → Scheduler → List Action
  | [], _      => []
  | x :: xs, σ => f x σ ++ forEach f xs (σ.exec (f x σ))

-- `primary_peer` of `tick_endgame`: the first peer with the most active sub-blocks of the chunk.
def primaryPeer (σ : Scheduler) (c : Nat) : Nat :=
  (σ.peerSlots.foldl (fun best p =>
    if best.2 < (p.begins c).size then (p.slotId, (p.begins c).size) else best) (uint32Max, 0)).1

def hungerThreshold (σ : Scheduler) (c : Nat) : UInt64 :=
  if σ.primaryPeer c ≠ uint32Max then
    match σ.peerSlots.find? (·.slotId = σ.primaryPeer c) with
    | some p => if 0 < p.rttUs then max (p.rttUs * 2 / 1000).toUInt64 50 else 50
    | none   => 50
  else 50

def hungry (σ : Scheduler) (c s : Nat) (threshold now : UInt64) : Bool :=
  !σ.subDone c s && σ.subReq c s && σ.subReqTime c s ≠ 0 && threshold < now - σ.subReqTime c s

-- The loop over the sub-blocks of a chunk in `tick_endgame`.
def endgameSubBlocks (c primary : Nat) (threshold now : UInt64) : List Nat → Scheduler → List Action
  | [], _      => []
  | s :: ss, σ =>
    if σ.hungry c s threshold now then
      let redundant := σ.findRedundantPeers c primary maxRedundantPeers
      let a := Action.redundant c s (redundant.filterMap σ.peerSlot)
      a :: endgameSubBlocks c primary threshold now ss (σ.apply a)
    else endgameSubBlocks c primary threshold now ss σ

-- The loop over `downloading` in `tick_endgame`, where `n` is `endgame_processed`.
def endgameChunks (now : UInt64) : Nat → List Nat → Scheduler → List Action
  | _, [], _      => []
  | n, c :: cs, σ =>
    if maxEndgameChunks ≤ n then []
    else if σ.subTotal c = 0 ∨ σ.chunkSubReqTime.length ≤ c then endgameChunks now n cs σ
    else
      let as := endgameSubBlocks c (σ.primaryPeer c) (σ.hungerThreshold c) now
        (.range (σ.subTotal c)) σ
      as ++ endgameChunks now (if as.isEmpty then n else n + 1) cs (σ.exec as)

def remaining (σ : Scheduler) (c : Nat) : Nat :=
  σ.subTotal c - σ.chunkSubDoneCount.getD c 0

def tickEndgame (std : StdSort) (now : UInt64) (σ : Scheduler) : List Action :=
  let downloading := σ.activeChunks.filter fun c => σ.chunkStates.getD c .complete = .downloading
  endgameChunks now 0 (std.sort σ.remaining downloading) σ

-- The loop over all peers in `tick` that rebalances.
def rebalanceAll (now : UInt64) (σ : Scheduler) : List Action :=
  forEach (rebalanceSeedRequestsForPeer · now 4) (.range σ.peerSlots.length) σ

-- The loop over all peers in `tick` that schedules.
def scheduleAll (now : UInt64) (σ : Scheduler) : List Action :=
  forEach (tryScheduleForPeer · now) (.range σ.peerSlots.length) σ

def tick (std : StdSort) (now : UInt64) (σ : Scheduler) : List Action :=
  if σ.phase = .done then []
  else
    let as := rebalanceAll now σ
    let bs := scheduleAll now (σ.exec as)
    let σ' := (σ.exec as).exec bs
    as ++ bs ++ if σ'.phase = .endgame then tickEndgame std now σ' else []

def wantsPeer (σ : Scheduler) (slot : Nat) : Bool :=
  match σ.peerSlots.find? (·.slotId = slot) with
  | none   => false
  | some p => (List.range σ.totalChunks).any fun c => p.has c && !σ.closed c

def checkPeerInterest (slot : Nat) (σ : Scheduler) : List Action :=
  if σ.notInterestedIssuer ∧ ¬σ.wantsPeer slot then [.notInterested slot] else []

def onBitfield (slot : Nat) (bf : List Bool) (now : UInt64) (σ : Scheduler) : List Action :=
  match σ.peerSlot slot with
  | none   => []
  | some i =>
    let σ' := σ.apply (.setBitfield i bf)
    .setBitfield i bf ::
      (checkPeerInterest slot σ' ++ rebalanceSeedRequestsForPeer i now 16 σ')

def onHave (slot c : Nat) (now : UInt64) (σ : Scheduler) : List Action :=
  match σ.peerSlot slot with
  | none   => []
  | some i =>
    match σ.peerSlots[i]? with
    | none   => []
    | some p =>
      if p.remoteBitfield.length ≤ c then []
      else
        let as := if p.has c then [] else [.recordHave i c]
        let σ' := σ.exec as
        as ++ checkPeerInterest slot σ' ++ rebalanceSeedRequestsForPeer i now 8 σ'

def decPeerPending (slot c b : Nat) (now : UInt64) (σ : Scheduler) : List Action :=
  match σ.peerSlot slot with
  | none   => []
  | some i =>
    match σ.peerSlots[i]? with
    | none   => []
    | some p =>
      if p.pendingRequests = 0 then []
      else
        let σ' := σ.apply (.arrive i c b)
        .arrive i c b :: if σ'.phase ≠ .done then tryScheduleForPeer i now σ' else []

def processCompletions (completions : List ChunkCompleteMsg) (_ : Scheduler) : List Action :=
  completions.map (fun m => .complete m.chunkIdx m.winningPeerSlot) ++ [.settle true]

def onSubblockTimeout (c b : Nat) (σ : Scheduler) : List Action :=
  if σ.closed c then [] else [.timeout c b]

def markAllComplete (bf : List Bool) (σ : Scheduler) : List Action :=
  ((List.range σ.totalChunks).filter fun c => bf.getD c false && !σ.closed c).map .markComplete
    ++ [.settle false]

-- Applies an update to the slot that `peer_slot(slot)` points to, if there is one.
def onSlot (slot : Nat) (f : Nat → Action) (σ : Scheduler) : List Action :=
  (σ.peerSlot slot).toList.map f

-- The public operations of the scheduler.
inductive Op
  | setCancelIssuer
  | setNotInterestedIssuer
  | randomizePieceOrder (order : List Nat)
  | onBitfield (slot : Nat) (bf : List Bool) (now : UInt64)
  | onHave (slot c : Nat) (now : UInt64)
  | onPeerAdded (slot speed : Nat)
  | onPeerSpeed (slot speed : Nat)
  | onPeerRemoved (slot : Nat)
  | onChokeChange (slot : Nat) (choking : Bool)
  -- The write of `do_eval_tick` through `peer_slot`.
  | evalTick (slot cap timeouts : Nat) (rtt : UInt32)
  | decPeerPending (slot c b : Nat) (now : UInt64)
  | tick (now : UInt64)
  | processCompletions (completions : List ChunkCompleteMsg)
  | onVerifyFailed (c : Nat)
  | onSubblockTimeout (c b : Nat)
  | markAllComplete (bf : List Bool)

def actions (std : StdSort) : Op → Scheduler → List Action
  | .setCancelIssuer,               _ => [.setCancelIssuer]
  | .setNotInterestedIssuer,        _ => [.setNotInterestedIssuer]
  | .randomizePieceOrder order,     _ => [.shuffle order]
  | .onBitfield slot bf now,        σ => onBitfield slot bf now σ
  | .onHave slot c now,             σ => onHave slot c now σ
  | .onPeerAdded slot speed,        _ => [.addPeer slot speed]
  | .onPeerSpeed slot speed,        σ => onSlot slot (.setSpeed · speed) σ
  | .onPeerRemoved slot,            _ => [.removePeer slot]
  | .onChokeChange slot choking,    σ => onSlot slot (.setChoking · choking) σ
  | .evalTick slot cap t rtt,       σ => onSlot slot (.setEval · cap t rtt) σ
  | .decPeerPending slot c b now,   σ => decPeerPending slot c b now σ
  | .tick now,                      σ => tick std now σ
  | .processCompletions msgs,       σ => processCompletions msgs σ
  | .onVerifyFailed c,              _ => [.verifyFailed c]
  | .onSubblockTimeout c b,         σ => onSubblockTimeout c b σ
  | .markAllComplete bf,            σ => markAllComplete bf σ

-- What the callers guarantee: chunk indices of verify results are in range, new peers get new slots
-- and the shuffle only permutes.
def Legal (σ : Scheduler) : Op → Prop
  | .randomizePieceOrder order => order.Perm σ.activeChunks
  | .onPeerAdded slot _        => ∀ p ∈ σ.peerSlots, p.slotId ≠ slot
  | .processCompletions msgs   => ∀ m ∈ msgs, m.chunkIdx < σ.totalChunks
  | .onVerifyFailed c          => c < σ.totalChunks
  | _                          => True

instance : (op : Op) → Decidable (Legal σ op)
  | .randomizePieceOrder order => inferInstanceAs (Decidable (order.Perm σ.activeChunks))
  | .onPeerAdded slot _        => inferInstanceAs (Decidable (∀ p ∈ σ.peerSlots, p.slotId ≠ slot))
  | .processCompletions msgs   =>
    inferInstanceAs (Decidable (∀ m ∈ msgs, m.chunkIdx < σ.totalChunks))
  | .onVerifyFailed c          => inferInstanceAs (Decidable (c < σ.totalChunks))
  | .setCancelIssuer | .setNotInterestedIssuer | .onBitfield .. | .onHave .. | .onPeerSpeed ..
  | .onPeerRemoved _ | .onChokeChange .. | .evalTick .. | .decPeerPending .. | .tick _
  | .onSubblockTimeout .. | .markAllComplete _ => .isTrue trivial

-- The state after an operation.
abbrev next (std : StdSort) : Scheduler → Op → Scheduler :=
  Actions.after apply (actions std)

-- The state after a sequence of operations.
abbrev run (std : StdSort) : Scheduler → List Op → Scheduler :=
  Actions.exec (next std)

-- All actions of a sequence of operations.
abbrev history (std : StdSort) : Scheduler → List Op → List Action :=
  Actions.perform apply (actions std)

-- The callbacks that a sequence of operations invokes.
def callbacks (std : StdSort) (σ : Scheduler) (ops : List Op) : List Call :=
  (Actions.trace apply σ (history std σ ops)).flatMap fun x => x.1.calls x.2

abbrev AllOps (std : StdSort) (P : Scheduler → Op → Prop) : Scheduler → List Op → Prop :=
  Actions.AllAt (next std) P

-- The scheduler after `init` and `set_chunk_sizes`.
def start (totalChunks : UInt32) (speed : Nat) (sizes : List UInt32) : Scheduler :=
  (init totalChunks speed).setChunkSizes sizes

end Scheduler
end ThinBT
