import ThinBT.Cli.Tbt
import ThinBT.Util.Strings

namespace ThinBT.IpcServer

open Cli

-- The text between the first `"key":"` of a request and the next quote. It is empty if there is none.
def extract (request : List UInt8) (key : String) : List UInt8 :=
  (Strings.between (utf8 "\"" ++ utf8 key ++ utf8 "\":\"") 34 request).elim [] (·.1)

-- `handle`, up to the call of the task manager or the response to a request without one.
def handle (request : List UInt8) : Except String Command :=
  let cmd := extract request "cmd"
  if cmd = utf8 "seed" then
    .ok (.seed (extract request "seed_path") (extract request "file_path"))
  else if cmd = utf8 "add" then
    let seedPath := extract request "seed_path"
    if seedPath = [] then .error "\x7b\"status\":\"error\",\"error\":\"missing seed_path\"\x7d"
    else
      let savePath := extract request "save_path"
      .ok (.add seedPath (if savePath = [] then downloadedFile else savePath))
  else if cmd = utf8 "list" then .ok .list
  else if cmd = utf8 "remove" then .ok (.remove (extract request "task_id"))
  else if cmd = utf8 "update" then
    let newSeed := extract request "new_seed"
    let taskId := extract request "task_id"
    if newSeed ≠ [] then
      .ok (.update newSeed (extract request "new_file") (extract request "old_seed")
        (extract request "old_file"))
    else if taskId ≠ [] then .ok (.status taskId)
    else .error "\x7b\"status\":\"error\",\"error\":\"update requires task_id or new_seed\"\x7d"
  else if cmd = utf8 "peers" then
    let taskId := extract request "task_id"
    if taskId = [] then .error "\x7b\"status\":\"error\",\"error\":\"missing task_id\"\x7d"
    else .ok (.peers taskId)
  else .error "\x7b\"status\":\"error\",\"error\":\"unknown command\"\x7d"

-- `handle_client` handles what its only read returns.
def handleClient : List (List UInt8) → Option (Except String Command)
  | []         => none
  | first :: _ => if first = [] then none else some (handle first)

end ThinBT.IpcServer
