import Muezzin.Error
import Muezzin.Json.Decoder

/-!
# What the library asks of its host

The host reads files, knows which paths exist, and starts programs. The library sees it only through
these questions, so the same code runs on a real machine and on a described one.
-/

namespace Muezzin

inductive PathKind where
  | file
  | directory
  deriving DecidableEq, Repr

structure Host where
  read : String → Except PathFault ByteArray
  kind? : String → Option PathKind
  /-- Starts a program with its arguments, without waiting for it. -/
  launch : String → List String → Except PathFault Unit

namespace Host

def pathExists (host : Host) (path : String) : Bool :=
  (host.kind? path).isSome

def isDirectory (host : Host) (path : String) : Bool :=
  host.kind? path == some .directory

def readText (host : Host) (path : String) : Except ReadFault String :=
  match host.read path with
  | .error fault => .error (.path fault)
  | .ok bytes =>
    match String.fromUTF8? bytes with
    | some text => .ok text
    | none => .error .notUtf8

/-- The document in a file, or nothing if there is no such file. -/
def readDocument {α : Type} (host : Host) (decoder : Json.Decoder α) (path : String) :
    Except ReadFault (Option α) :=
  match host.readText path with
  | .error (.path .notFound) => .ok none
  | .error fault => .error fault
  | .ok text =>
    match Json.Decoder.document decoder text with
    | .ok a => .ok (some a)
    | .error _ => .error .notDocument

end Host

end Muezzin
