import Muezzin.Engine.Report

/-!
# A speaker and a listener

In a rehearsal the notifier is a speaker that remembers what it was asked to play and can be told to
fail, and the events go to a listener who takes a bounded number of them at a time. Neither has any
way to answer the engine.
-/

namespace Muezzin

inductive SpeakerMode where
  | plays
  | fails
  /-- It never says whether it has played. -/
  | hangs
  | panics
  deriving DecidableEq, Repr

/-- The modes of some files; every other file plays. -/
structure Speaker where
  modes : List (String × SpeakerMode) := []
  deriving DecidableEq, Repr

namespace Speaker

/-- Stands for all files without a mode of their own. -/
def anyFile : String := "*"

def mode (s : Speaker) (file : String) : SpeakerMode :=
  ((s.modes.lookup file).or (s.modes.lookup anyFile)).getD .plays

def unplugged (file : String) : Error :=
  .reported .delivery ("speaker unplugged (" ++ file ++ ")")

/-- What becomes of an event whose file is played, if that is ever known. -/
def outcome? (s : Speaker) (key file : String) : Option EngineEvent :=
  match s.mode file with
  | .plays => some (.fired key file)
  | .fails => some (.notificationFailed key (unplugged file))
  | .hangs => none
  | .panics => none

end Speaker

structure EventChannel where
  capacity : Nat
  waiting : List EngineEvent := []
  isOpen : Bool := true
  deriving DecidableEq, Repr

namespace EventChannel

/-- Adds an event; it is lost if there is no room or nobody listens. -/
def send (c : EventChannel) (event : EngineEvent) : EventChannel :=
  if c.isOpen && c.waiting.length < c.capacity then { c with waiting := c.waiting ++ [event] }
  else c

def sendAll (c : EventChannel) (events : List EngineEvent) : EventChannel :=
  events.foldl send c

def drain (c : EventChannel) : List EngineEvent × EventChannel :=
  (c.waiting, { c with waiting := [] })

def close (c : EventChannel) : EventChannel :=
  { c with waiting := [], isOpen := false }

end EventChannel

def EngineEvent.isOutcome : EngineEvent → Bool
  | .fired _ _ => true
  | .notificationFailed _ _ => true
  | _ => false

end Muezzin
