import ThinBT.Cli.Make
import ThinBT.Common.Numbers

namespace ThinBT

open Cli Strings Numbers

structure TrackerUrl where
  host : List UInt8
  port : UInt16
  deriving DecidableEq

namespace TrackerUrl

def scheme : List UInt8 :=
  utf8 "thinbt://"

-- The host and what follows it. In brackets it may be empty.
def parseHost (p : List UInt8) : Option (List UInt8 × List UInt8) :=
  if p.head? = some 91 then
    (find [93] p.tail).map fun bracketEnd => (p.tail.take bracketEnd, p.tail.drop (bracketEnd + 1))
  else
    let hostEnd := min ((find [58] p).getD p.length) ((find [47] p).getD p.length)
    if hostEnd = 0 then none else some (p.take hostEnd, p.drop hostEnd)

-- Nothing is said about what follows the number.
def parsePort (p : List UInt8) : Option UInt16 :=
  if p.head? = some 58 then
    (strtol p.tail).bind fun port =>
      if port < 1 || 65535 < port then none else some (.ofNat port.toNat)
  else none

-- The pointer into the URL sees what is before the first NUL.
def parseTrackerUrl (url : List UInt8) : Option TrackerUrl :=
  if scheme <+: url then do
    let (host, p) ← parseHost ((url.drop scheme.length).takeWhile (· ≠ 0))
    let port ← parsePort p
    return ⟨host, port⟩
  else none

end TrackerUrl

end ThinBT
