import ThinBT.Util.Actions
import ThinBT.Util.Lists
import Mathlib.Data.List.Sort
import Mathlib.Logic.Function.Basic

namespace ThinBT

structure TrackerPeerEntry where
  ip           : String
  port         : UInt16
  flags        : UInt8
  -- A time point of `steady_clock` in nanoseconds.
  lastAnnounce : Int
  deriving DecidableEq, Repr

namespace TrackerPeerEntry

def endpoint (p : TrackerPeerEntry) : String × UInt16 :=
  (p.ip, p.port)

def gigabit (p : TrackerPeerEntry) : Bool :=
  p.flags &&& 0x02 ≠ 0

-- `duration_cast` rounds towards zero.
def stale (now : Int) (timeoutSec : UInt32) (p : TrackerPeerEntry) : Bool :=
  timeoutSec.toNat < (now - p.lastAnnounce).tdiv 1000000000

end TrackerPeerEntry

-- `std::sort` by descending flags. It need not be stable.
structure FlagSort where
  sort   : List TrackerPeerEntry → List TrackerPeerEntry
  perm   : ∀ l, (sort l).Perm l
  sorted : ∀ l, (sort l).Pairwise fun a b => b.flags ≤ a.flags

-- One such sort: it keeps the order of entries with equal flags.
def FlagSort.stable : FlagSort where
  sort l   := l.insertionSort fun a b => b.flags ≤ a.flags
  perm l   := List.perm_insertionSort _ l
  sorted l := by
    have : Std.Total fun a b : TrackerPeerEntry => b.flags ≤ a.flags :=
      ⟨fun a b => UInt8.le_total b.flags a.flags⟩
    have : IsTrans TrackerPeerEntry fun a b => b.flags ≤ a.flags :=
      ⟨fun _ _ _ hab hbc => UInt8.le_trans hbc hab⟩
    exact List.pairwise_insertionSort _ l

-- The peers of each swarm, where a swarm that is not in `swarms_` has none.
structure TrackerServer where
  swarms : String → List TrackerPeerEntry := fun _ => []

namespace TrackerServer

def flagsOf (speedMbps : UInt32) : UInt8 :=
  if 1000 ≤ speedMbps then 0 ||| 0x02 else 0

def announce (std : FlagSort) (s : TrackerServer) (now : Int) (infoHashHex peerIp : String)
    (peerPort : UInt16) (speedMbps : UInt32) : TrackerServer × List TrackerPeerEntry :=
  let entry := ⟨peerIp, peerPort, flagsOf speedMbps, now⟩
  let swarm := (s.swarms infoHashHex).upsert (·.endpoint) entry
  (⟨Function.update s.swarms infoHashHex swarm⟩,
    std.sort (swarm.filter fun p => p.ip ≠ peerIp || p.port ≠ peerPort))

def cleanupStale (s : TrackerServer) (now : Int) (timeoutSec : UInt32) : TrackerServer :=
  ⟨fun hash => (s.swarms hash).filter fun p => !p.stale now timeoutSec⟩

inductive Op
  | announce (infoHashHex peerIp : String) (peerPort : UInt16) (speedMbps : UInt32)
  | cleanupStale (timeoutSec : UInt32)

-- The state after a call at a time.
def next (std : FlagSort) (s : TrackerServer) : Int × Op → TrackerServer
  | (now, .announce infoHashHex peerIp peerPort speedMbps) =>
    (s.announce std now infoHashHex peerIp peerPort speedMbps).1
  | (now, .cleanupStale timeoutSec) => s.cleanupStale now timeoutSec

-- The state after a sequence of calls.
def run (std : FlagSort) (calls : List (Int × Op)) : TrackerServer :=
  Actions.exec (next std) {} calls

end TrackerServer

end ThinBT
