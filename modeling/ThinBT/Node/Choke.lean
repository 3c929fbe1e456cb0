import ThinBT.Node.State
import Mathlib.Logic.Function.Basic

namespace ThinBT

-- What `tick_choke` asks a session for, once the rates are updated.
structure PeerRates where
  downloadRateKbps  : UInt32
  uploadRateKbps    : UInt32
  linkSpeedReported : UInt32
  deriving DecidableEq, Repr

namespace Choke

-- The sum of the rates may wrap around.
def idleSpeed (localSpeedMbps : UInt32) (uploadRates : List UInt32) : UInt32 :=
  let currentUploadKbps := uploadRates.foldl (· + ·) 0
  let currentUploadMbps := currentUploadKbps / 1000
  if currentUploadMbps < localSpeedMbps then localSpeedMbps - currentUploadMbps else 0

def slots (idleSpeed : UInt32) : UInt32 :=
  min (4 + idleSpeed / 10 * 2) 20

def titForTat (slots : UInt32) : UInt32 :=
  slots * 50 / 100

def optimistic (slots : UInt32) : UInt32 :=
  slots * 25 / 100

def antiStarvation (slots : UInt32) : UInt32 :=
  slots - titForTat slots - optimistic slots

-- The loop that unchokes sessions as long as places are left. The flags are those of the sessions at
-- the given positions.
def fill (eligible : (Nat → Bool) → Nat → Bool) : (left : Nat) → List Nat → (Nat → Bool) → Nat → Bool
  | 0, _, choked             => choked
  | _, [], choked            => choked
  | left + 1, k :: ks, choked =>
    if eligible choked k then fill eligible left ks (Function.update choked k false)
    else fill eligible (left + 1) ks choked

-- The two orders of the sessions: `std::sort` may put equal rates in any order, and `std::shuffle` may
-- give every permutation.
structure Orders (rates : Nat → PeerRates) (sessions : List Nat) where
  sorted        : List Nat
  shuffled      : List Nat
  sorted_perm   : sorted.Perm sessions
  descending    : sorted.Pairwise fun j k => (rates k).downloadRateKbps ≤ (rates j).downloadRateKbps
  shuffled_perm : shuffled.Perm sessions

-- Equal rates stay in the order of the sessions, and nothing is shuffled.
instance {rates : Nat → PeerRates} {sessions : List Nat} : Inhabited (Orders rates sessions) where
  default := {
    sorted        := sessions.mergeSort fun j k =>
      decide ((rates k).downloadRateKbps ≤ (rates j).downloadRateKbps)
    shuffled      := sessions
    sorted_perm   := List.mergeSort_perm ..
    descending    := by
      refine (List.pairwise_mergeSort ?_ ?_ _).imp of_decide_eq_true
      · intro i j k hij hjk
        exact decide_eq_true (UInt32.le_trans (of_decide_eq_true hjk) (of_decide_eq_true hij))
      · intro j k
        simpa using UInt32.le_total ..
    shuffled_perm := .refl _ }

end Choke

namespace Node

open Choke

variable {δ : Type} (n : Node δ) (localSpeedMbps : UInt32) (rates : Nat → PeerRates)

def isPeerInterested (k : Nat) : Bool :=
  (n.sessions[k]?).any (·.peerInterested)

-- The slots for the sessions in `sessions_`.
def chokeSlots : UInt32 :=
  slots (idleSpeed localSpeedMbps (n.openSessions.map fun k => (rates k).uploadRateKbps))

variable (o : Orders rates n.openSessions)

-- Every session is choked first.
def ratePass : Nat → Bool :=
  fill (fun _ k => n.isPeerInterested k) (titForTat (n.chokeSlots localSpeedMbps rates)).toNat o.sorted
    fun _ => true

def optimisticPass : Nat → Bool :=
  let count := min (optimistic (n.chokeSlots localSpeedMbps rates)) (.ofNat o.shuffled.length)
  (o.shuffled.take count.toNat).foldl (fun choked k => Function.update choked k false)
    (n.ratePass localSpeedMbps rates o)

def antiStarvationPass : Nat → Bool :=
  fill (fun choked k => (rates k).linkSpeedReported < 1000 && choked k)
    (antiStarvation (n.chokeSlots localSpeedMbps rates)).toNat o.shuffled
    (n.optimisticPass localSpeedMbps rates o)

-- `tick_choke`
def tickChoke : Op :=
  .tickChoke ((List.range n.sessions.length).map (n.antiStarvationPass localSpeedMbps rates o))

end Node
end ThinBT
