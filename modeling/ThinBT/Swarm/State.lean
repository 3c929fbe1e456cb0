import ThinBT.Node.State
import Mathlib.Logic.Function.Basic

namespace ThinBT

-- A session of a node of the swarm.
structure End where
  node    : Nat
  session : Nat
  deriving DecidableEq, Repr

structure Swarm (δ : Type) where
  nodes   : List (Node δ)
  -- The connections that have not been accepted yet, with the nodes that they are for.
  backlog : List (End × Nat) := []
  -- The other ends of the connections that have been accepted.
  mate    : End → Option End := fun _ => none

namespace Swarm

-- The steps that a node makes without the others.
def isLocal : Node.Op → Bool
  | .connect | .accept | .receive .. => false
  | _                                => true

inductive Op
  -- The first node connects to the second one.
  | connect (i j : Nat)
  -- A connection of the backlog is accepted.
  | accept (b : Nat)
  -- The next message is delivered to a session.
  | deliver (e : End) (peers : List PexPeer)
  | node (i : Nat) (op : Node.Op)

variable {δ : Type}

def session (w : Swarm δ) (e : End) : Option PeerSession :=
  (w.nodes[e.node]?).bind (·.sessions[e.session]?)

-- The first message that the session has not received yet.
def nextMessage (w : Swarm δ) (e : End) : Option Msg := do
  let d ← w.mate e
  let s ← w.session e
  let t ← w.session d
  t.stream[s.received.length]?

-- The step of a node that belongs to a step of the swarm.
def event (w : Swarm δ) : Op → Option (Nat × Node.Op)
  -- `connect_to` skips the node itself.
  | .connect i j     => if i = j then none else some (i, .connect)
  | .accept b        => (w.backlog[b]?).map fun x => (x.2, .accept)
  | .deliver e peers => (w.nextMessage e).map fun m => (e.node, .receive e.session m peers)
  | .node i op       => if isLocal op then some (i, op) else none

-- What becomes of the connections when a node steps from `n` to `n'`. If the node has enough peers,
-- the connection is dropped.
def reconnect (w : Swarm δ) (n n' : Node δ) : Op → Swarm δ
  | .connect i j =>
    if n.sessions.length < n'.sessions.length then
      { w with backlog := w.backlog ++ [(⟨i, n.sessions.length⟩, j)] }
    else w
  | .accept b    =>
    match w.backlog[b]? with
    | none        => w
    | some (c, j) =>
      let s : End := ⟨j, n.sessions.length⟩
      { w with
        backlog := w.backlog.eraseIdx b
        mate    := if n.sessions.length < n'.sessions.length then
            Function.update (Function.update w.mate c (some s)) s (some c)
          else w.mate }
  | _            => w

-- A step at a time.
def step [DecidableEq δ] (sha256 : List UInt8 → δ) (std : StdSort) (w : Swarm δ) (x : UInt64 × Op) :
    Option (Swarm δ) :=
  match w.event x.2 with
  | none         => some w
  | some (i, op) =>
    match w.nodes[i]? with
    | none   => some w
    | some n => do
      let n' ← n.step sha256 std (x.1, op)
      return { w.reconnect n n' x.2 with nodes := w.nodes.set i n' }

-- Nothing is on the way to the session.
def Delivered (w : Swarm δ) (e : End) : Prop :=
  w.nextMessage e = none

instance {w : Swarm δ} {e : End} : Decidable (w.Delivered e) :=
  inferInstanceAs (Decidable (w.nextMessage e = none))

end Swarm
end ThinBT
