import ThinBT.Seed.Format
import ThinBT.Cdc.FastCDC

namespace ThinBT

def Files.write (files : Files) (path : String) (bytes : List UInt8) : Files :=
  fun p => if p = path then some bytes else files p

namespace Cli

def utf8 (s : String) : List UInt8 :=
  s.toUTF8.data.toList

-- What follows the last slash or backslash of a path.
def baseName (path : String) : String :=
  .ofList (path.toList.reverse.takeWhile fun c => c.toNat ≠ 47 && c.toNat ≠ 92).reverse

-- The options of `tbt make`, where an empty output path stands for the default.
structure MakeOptions where
  filePath    : String
  outputPath  : String := ""
  announceIp  : String := "auto"
  trackerPort : UInt16 := 8080

-- The data of the response, where the digests of SHA-1 are the elements of a type `η`.
structure MakeResponse (η : Type) where
  seedPath   : String
  infoHash   : η
  chunkCount : UInt32
  fileSize   : UInt64

def MakeOptions.seedPath (o : MakeOptions) : String :=
  if o.outputPath = "" then o.filePath ++ ".tseed" else o.outputPath

def MakeOptions.localIp (o : MakeOptions) (getLocalIp : String) : String :=
  if o.announceIp = "auto" then getLocalIp else o.announceIp

def MakeOptions.announceUrl (o : MakeOptions) (getLocalIp : String) : String :=
  "thinbt://" ++ o.localIp getLocalIp ++ ":" ++ toString o.trackerPort.toNat ++ "/announce"

section Make

variable {η : Type} (sha1 : List UInt8 → η) (sha256 : List UInt8 → Sha256Digest)

def sha256File (files : Files) (path : String) : Except String Sha256Digest :=
  match files path with
  | none       => .error ("sha256_file: cannot open " ++ path)
  | some bytes => .ok (sha256 bytes)

-- `cli_make` after its options have been parsed. It hashes the file again after it has written the
-- seed.
def make (getLocalIp : String) (files : Files) (o : MakeOptions) :
    Except String (MakeResponse η × Files) := do
  if o.localIp getLocalIp = "" then throw "cannot detect local IP"
  else
    let chunks := FastCDC.scanFile sha256 {} files o.filePath
    if chunks = [] then throw "file is empty or unreadable"
    else
      let written ← sha256File sha256 files o.filePath
      let files' := files.write o.seedPath (writeTseed written (utf8 (baseName o.filePath))
        (utf8 (o.announceUrl getLocalIp)) chunks {})
      let digest ← sha256File sha256 files' o.filePath
      return ({
        seedPath   := o.seedPath
        infoHash   := sha1 (infoHashInput digest chunks)
        chunkCount := .ofNat chunks.length
        fileSize   := totalFileSize chunks }, files')

end Make
end Cli
end ThinBT
