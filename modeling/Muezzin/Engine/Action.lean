import Muezzin.Change
import Muezzin.Inputs
import Muezzin.Registry

/-!
# What the engine does

Every operation of the engine gives the list of its actions in order. A run is told completely by
them: what was claimed and what became of it, what was cancelled, what was loaded, and what was
armed in its place. The events for listeners and the lines of the log are views of this list.
-/

namespace Muezzin

inductive Action where
  | started
  | changed (change : SettingsChange)
  | rescheduling (reason : String)
  /-- A timer reported a registration that is not live any more. -/
  | stale (fire : Fire)
  | rolledOver (r : Registration) (now : Instant)
  /-- A rebuild claimed the rollover that it replaces. -/
  | superseded (r : Registration)
  /-- A claimed event ran too short a time ago. -/
  | suppressed (r : Registration) (elapsed : Int)
  | withdrawn (r : Registration) (cause : Withdrawal)
  /-- There is no prayer to announce. -/
  | ignored (r : Registration)
  /-- There is no file to play. -/
  | unvoiced (r : Registration)
  /-- The file of a claimed event goes to the notifier. -/
  | handedOff (r : Registration) (file : String) (now : Instant)
  | cancelled (rs : List Registration)
  | cleared (count : Nat)
  | loading (date : Date)
  /-- A text of the timetable counts as midnight. -/
  | misread (complaint : Error)
  /-- A prayer is switched on but has no time. -/
  | untimed (p : Prayer) (atIqamah : Bool)
  | skipped (e : Event)
  | armed (r : Registration)
  | rebuilt (date : Date) (scheduled skipped cancelled : Nat)
  | rebuildFailed (e : Error)
  | signalled
  | stopped (cancelled : Nat)
  deriving DecidableEq, Repr

end Muezzin
