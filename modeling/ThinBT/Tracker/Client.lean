import ThinBT.Util.Machine

namespace ThinBT

-- What an announce is waiting for. It goes from one to the next until it ends.
inductive AnnounceChain
  | connecting
  | writing
  | reading
  | retryTimer
  | emptyPollTimer
  deriving DecidableEq, Repr

structure TrackerClient where
  retryEnabled  : Bool := true
  retryCount    : UInt32 := 0
  -- Whether `on_dead_` is set, and how often it has been called.
  onDead        : Bool := false
  deadCalls     : Nat := 0
  deadSignalled : Bool := false
  -- The announces that are in flight or have armed a timer.
  chains        : List AnnounceChain := []
  deriving DecidableEq

namespace TrackerClient

def maxRetries : UInt32 :=
  240

def moveChain (c : TrackerClient) (k : Nat) (x : AnnounceChain) : TrackerClient :=
  { c with chains := c.chains.set k x }

def endChain (c : TrackerClient) (k : Nat) : TrackerClient :=
  { c with chains := c.chains.eraseIdx k }

-- `do_announce` of a new chain, and of one whose timer has expired. It throws if the host cannot be
-- resolved.
def startChain (c : TrackerClient) (resolves : Bool) : TrackerClient :=
  if resolves then { c with chains := c.chains ++ [.connecting] } else c

def doAnnounce (c : TrackerClient) (k : Nat) (resolves : Bool) : TrackerClient :=
  if resolves then c.moveChain k .connecting else c.endChain k

def announce (c : TrackerClient) (resolves : Bool) : TrackerClient :=
  { c with retryCount := 0, deadSignalled := false }.startChain resolves

def signalDead (c : TrackerClient) : TrackerClient :=
  if !c.deadSignalled && c.onDead then
    { c with deadSignalled := true, deadCalls := c.deadCalls + 1 }
  else c

def scheduleRetry (c : TrackerClient) (k : Nat) : TrackerClient :=
  if !c.retryEnabled || maxRetries ≤ c.retryCount then (c.endChain k).signalDead
  else { c with retryCount := c.retryCount + 1 }.moveChain k .retryTimer

def scheduleEmptyPoll (c : TrackerClient) (k : Nat) : TrackerClient :=
  if !c.retryEnabled then c.endChain k else c.moveChain k .emptyPollTimer

-- The calls and the handlers of the chain `k`.
inductive Op
  | setRetryEnabled (v : Bool)
  | setOnDead
  | announce (resolves : Bool)
  | connected (k : Nat) (ok : Bool)
  | written (k : Nat) (ok : Bool)
  -- The number of peers in the response, unless reading it fails.
  | response (k : Nat) (peers : Option Nat)
  -- The handler of the retry timer does not look at the error code.
  | retryExpired (k : Nat) (resolves : Bool)
  | pollExpired (k : Nat) (ok resolves : Bool)
  deriving DecidableEq

-- A handler only runs while the chain waits for it.
def handle (c : TrackerClient) (k : Nat) (x : AnnounceChain) (c' : TrackerClient) :
    Option TrackerClient :=
  if c.chains[k]? = some x then some c' else none

def step (c : TrackerClient) : Op → Option TrackerClient
  | .setRetryEnabled v     => some { c with retryEnabled := v }
  | .setOnDead             => some { c with onDead := true }
  | .announce resolves     => some (c.announce resolves)
  | .connected k ok        =>
    c.handle k .connecting (if ok then c.moveChain k .writing else c.scheduleRetry k)
  | .written k ok          =>
    c.handle k .writing (if ok then c.moveChain k .reading else c.scheduleRetry k)
  | .response k none       => c.handle k .reading (c.scheduleRetry k)
  | .response k (some 0)   => c.handle k .reading (c.scheduleEmptyPoll k)
  | .response k (some _)   => c.handle k .reading (c.endChain k)
  | .retryExpired k res    => c.handle k .retryTimer (c.doAnnounce k res)
  | .pollExpired k ok res  =>
    c.handle k .emptyPollTimer (if ok then c.doAnnounce k res else c.endChain k)

end TrackerClient

end ThinBT
