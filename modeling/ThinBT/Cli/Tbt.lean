import ThinBT.Cli.Make

namespace ThinBT

-- What the daemon is asked for. `status` is the form of `update` with one argument.
inductive Command
  | seed (seedPath filePath : List UInt8)
  | add (seedPath savePath : List UInt8)
  | update (newSeed newFile oldSeed oldFile : List UInt8)
  | status (taskId : List UInt8)
  | list
  | peers (taskId : List UInt8)
  | remove (taskId : List UInt8)
  deriving DecidableEq, Repr

namespace Cli

-- The default of `tbt add`, which the daemon has as well.
def downloadedFile : List UInt8 :=
  utf8 "downloaded_file"

-- The part of `main` that reads the subcommand and its arguments, as far as the daemon is asked.
def tbt : List (List UInt8) → Option Command
  | []          => none
  | cmd :: args =>
    if cmd = utf8 "add" then
      match args with
      | seedPath :: rest => some (.add seedPath (rest.head?.getD downloadedFile))
      | _                => none
    else if cmd = utf8 "seed" then
      match args with
      | seedPath :: filePath :: _ => some (.seed seedPath filePath)
      | _                         => none
    else if cmd = utf8 "list" then some .list
    else if cmd = utf8 "update" then
      match args with
      | newSeed :: newFile :: oldSeed :: oldFile :: _ => some (.update newSeed newFile oldSeed oldFile)
      | taskId :: _                                   => some (.status taskId)
      | _                                             => none
    else if cmd = utf8 "peers" then args.head?.map .peers
    else if cmd = utf8 "remove" then args.head?.map .remove
    else none

-- The request that the client puts together.
def request : Command → List UInt8
  | .seed seedPath filePath =>
    utf8 "\x7b\"cmd\":\"seed\",\"args\":\x7b\"seed_path\":\"" ++ seedPath ++
      utf8 "\",\"file_path\":\"" ++ filePath ++ utf8 "\"\x7d\x7d"
  | .add seedPath savePath =>
    utf8 "\x7b\"cmd\":\"add\",\"args\":\x7b\"seed_path\":\"" ++ seedPath ++
      utf8 "\",\"save_path\":\"" ++ savePath ++ utf8 "\"\x7d\x7d"
  -- `cli_update`
  | .update newSeed newFile oldSeed oldFile =>
    utf8 "\x7b\"cmd\":\"update\",\"args\":\x7b" ++
      (utf8 "\"new_seed\":\"" ++ newSeed ++ utf8 "\"") ++
      (utf8 ",\"new_file\":\"" ++ newFile ++ utf8 "\"") ++
      (utf8 ",\"old_seed\":\"" ++ oldSeed ++ utf8 "\"") ++
      (utf8 ",\"old_file\":\"" ++ oldFile ++ utf8 "\"") ++ utf8 "\x7d\x7d"
  | .status taskId =>
    utf8 "\x7b\"cmd\":\"update\",\"args\":\x7b\"task_id\":\"" ++ taskId ++ utf8 "\"\x7d\x7d"
  | .list => utf8 "\x7b\"cmd\":\"list\",\"args\":\x7b\x7d\x7d"
  | .peers taskId =>
    utf8 "\x7b\"cmd\":\"peers\",\"args\":\x7b\"task_id\":\"" ++ taskId ++ utf8 "\"\x7d\x7d"
  | .remove taskId =>
    utf8 "\x7b\"cmd\":\"remove\",\"args\":\x7b\"task_id\":\"" ++ taskId ++ utf8 "\"\x7d\x7d"

-- What `send_ipc` sends.
def sendIpc (json : List UInt8) : List UInt8 :=
  json ++ utf8 "\n"

end Cli
end ThinBT
