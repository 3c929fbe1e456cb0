import ThinBT.Common.TrackerUrl
import ThinBT.Seed.Format
import ThinBT.Task.Update

namespace ThinBT

-- What the operating system answers to the calls that a command makes. A call that throws has the
-- text of its exception.
structure Os where
  opens     : Bool
  -- `fallocate` or `ftruncate`.
  allocates : Bool
  maps      : Bool
  -- The threads of the pools.
  starts    : Except String Unit
  -- The constructor of `PeerManager`.
  listens   : Except String Unit
  resolves  : TrackerUrl → Except String Unit

inductive Reply
  | ok (response : String)
  | error (response : String)
  | thrown (what : String)
  deriving DecidableEq

def Reply.failed : Reply → Bool
  | .ok _               => false
  | .error _ | .thrown _ => true

structure TaskManager where
  files       : Files
  -- Every task is an object of its own, which has the number of objects that were made before.
  tasks       : String → Option (Nat × Task Sha256Digest) := fun _ => none
  made        : Nat := 0
  made_lt     : ∀ tid x, tasks tid = some x → x.1 < made := by simp
  trackerHost : List UInt8 := []
  trackerPort : UInt16 := 8080

namespace TaskManager

def store (m : TaskManager) (tid : String) (τ : Task Sha256Digest) : TaskManager :=
  { m with
    tasks   := Function.update m.tasks tid (some (m.made, τ))
    made    := m.made + 1
    made_lt := by
      intro tid' x hx
      by_cases ht : tid' = tid
      case pos =>
        rw [ht, Function.update_self] at hx
        exact Option.some.inj hx ▸ Nat.lt_succ_self _
      case neg =>
        rw [Function.update_of_ne ht] at hx
        exact Nat.lt_succ_of_lt (m.made_lt tid' x hx) }

section Output

def sizeMatches (existing : Option (List UInt8)) (fileSize : UInt64) : Bool :=
  existing.any fun file => file.length = fileSize.toNat

-- `off_t` is signed.
def allocated (os : Os) (fileSize : UInt64) : Bool :=
  os.allocates && fileSize < 0x8000000000000000

-- What `SegmentWriter::open` returns and the files after it. It truncates before it allocates.
def openOutput (os : Os) (files : Files) (path : String) (fileSize : UInt64) : Bool × Files :=
  if fileSize = 0 || !os.opens then (false, files)
  else if sizeMatches (files path) fileSize || allocated os fileSize then
    (true, Function.update files path (some (SegmentWriter.preallocate (files path) fileSize)))
  else (false, Function.update files path (some []))

end Output

-- The tracker to which `announce_task_now` announces.
def trackerOf (m : TaskManager) (announceUrl : List UInt8) : TrackerUrl :=
  let t := if m.trackerHost = [] then TrackerUrl.parseTrackerUrl announceUrl else none
  let t := t.getD ⟨m.trackerHost, m.trackerPort⟩
  if t.host = [] then { t with host := Cli.utf8 "127.0.0.1" } else t

def cannotCreate : String :=
  "\x7b\"status\":\"error\",\"error\":\"cannot create output file\"\x7d"

def noChunkBase : String :=
  "\x7b\"status\":\"error\",\"error\":\"mmap chunk base failed\"\x7d"

-- The end of `cmd_add` and `cmd_update`, after the output file has been opened. There is no task if
-- the chunk table is refused, and `copied` is what happens to the files before the listening socket
-- is made.
def launch (os : Os) (m : TaskManager) (tid : String) (announceUrl : List UInt8)
    (task : Option (Task Sha256Digest)) (copied : Files → Files) (response : String) :
    TaskManager × Reply :=
  match task with
  | none   => (m, .error noChunkBase)
  | some τ =>
    if os.maps then
      match os.starts with
      | .error what => (m, .thrown what)
      | .ok _       =>
        let m := { m with files := copied m.files }
        match os.listens with
        | .error what => (m, .thrown what)
        | .ok _       =>
          let m := m.store tid τ
          match os.resolves (m.trackerOf announceUrl) with
          | .error what => (m, .thrown what)
          | .ok _       => (m, .ok response)
    else (m, .error noChunkBase)

-- Both commands from the output file on.
def create (os : Os) (m : TaskManager) (tid path : String) (fileSize : UInt64)
    (announceUrl : List UInt8) (task : Option (Task Sha256Digest)) (copied : Files → Files)
    (response : String) : TaskManager × Reply :=
  let o := openOutput os m.files path fileSize
  let m := { m with files := o.2 }
  if o.1 then launch os m tid announceUrl task copied response else (m, .error cannotCreate)

section Commands

variable {η : Type} (sha1 : List UInt8 → η) (sha256 : List UInt8 → Sha256Digest)
variable (sha256Hex : List UInt8 → String) (std : StdSort)

-- The seed and the URL of its tracker. The number of chunks is one of the header.
def readSeed (files : Files) (path : String) :
    Except String (TSeedFile Sha256Digest × List UInt8) := do
  let t ← readTseed sha1 sha256Hex files path
  if h : t.chunks.length < 2 ^ 32 then return (t.seedFile h, t.announceUrl)
  else throw ""

-- `tid` is what `gen_task_id` returns and `order` the shuffled piece order.
def cmdAdd (os : Os) (m : TaskManager) (tid seedPath savePath : String)
    (hardwareConcurrency speed : Nat) (order : List Nat) : TaskManager × Reply :=
  match readSeed sha1 sha256Hex m.files seedPath with
  | .error what => (m, .thrown what)
  | .ok (seed, announceUrl) =>
    create os m tid savePath seed.fileSize announceUrl
      (Task.cmdAdd sha256 std seed (m.files savePath) hardwareConcurrency speed order) id
      ("\x7b\"status\":\"ok\",\"data\":\x7b\"task_id\":\"" ++ tid ++ "\"\x7d\x7d")

-- The old file is only scanned if its seed can be read.
def cmdUpdate (os : Os) (clones : Nat → UInt64 → Bool) (m : TaskManager)
    (tid newSeedPath newFilePath oldSeedPath oldFilePath : String)
    (hardwareConcurrency speed : Nat) (order : List Nat) : TaskManager × Reply :=
  match readSeed sha1 sha256Hex m.files newSeedPath with
  | .error what => (m, .thrown what)
  | .ok (seed, announceUrl) =>
    let oldSeed := (readSeed sha1 sha256Hex m.files oldSeedPath).toOption.map (·.1)
    let oldPath := if oldSeed.isSome then oldFilePath else ""
    let r := Task.reuse sha256 seed newFilePath oldSeed oldPath m.files clones
    create os m tid newFilePath seed.fileSize announceUrl
      (Task.cmdUpdate sha256 std seed newFilePath oldSeed oldPath m.files clones
        hardwareConcurrency speed order)
      (fun _ => r.files)
      ("\x7b\"status\":\"ok\",\"data\":\x7b\"task_id\":\"" ++ tid ++ "\",\"chunk_count\":" ++
        toString seed.chunkCount.toNat ++ ",\"matched\":" ++ toString r.matched.toNat ++ "\x7d\x7d")

end Commands

end TaskManager

end ThinBT
