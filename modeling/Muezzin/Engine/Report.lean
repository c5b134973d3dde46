import Muezzin.Debounce
import Muezzin.Engine.Action

/-!
# Events for listeners and lines of the log

Listeners learn what became of the schedule and of every claimed event. The log tells the same in
words, and more. Both are read off the actions.
-/

namespace Muezzin

inductive EngineEvent where
  | started
  /-- The rollover counts among the scheduled. -/
  | rebuilt (scheduled skipped cancelled : Nat)
  | rebuildFailed (reason : Error)
  | skipped (key : String)
  | fired (key file : String)
  | suppressed (key : String)
  | withdrawn (key : String)
  | notificationFailed (key : String) (reason : Error)
  | stopped (reason : String)
  deriving DecidableEq, Repr

inductive LogLevel where
  | trace
  | debug
  | info
  | warn
  | error
  deriving DecidableEq, Repr

namespace LogLevel

def rank : LogLevel → Nat
  | trace => 0
  | debug => 1
  | info => 2
  | warn => 3
  | error => 4

def name : LogLevel → String
  | trace => "TRACE"
  | debug => "DEBUG"
  | info => "INFO"
  | warn => "WARN"
  | error => "ERROR"

def ofName? (name : String) : Option LogLevel :=
  match String.ofList (Text.lower name.toList) with
  | "trace" => some trace
  | "debug" => some debug
  | "info" => some info
  | "warn" => some warn
  | "error" => some error
  | _ => none

end LogLevel

structure LogLine where
  level : LogLevel
  text : String
  deriving DecidableEq, Repr

namespace LogLine

def info (text : String) : LogLine := ⟨.info, text⟩
def warn (text : String) : LogLine := ⟨.warn, text⟩
def error (text : String) : LogLine := ⟨.error, text⟩

/-- Whether a terminal takes the character for a command; blanks and line ends are not meant. -/
def isCommand (c : Char) : Bool :=
  let n := c.toNat
  n == 0x07 || n == 0x08 || n == 0x0C || n == 0x1B || n == 0x7F || (0x80 ≤ n && n ≤ 0x9F)

/-- Commands to a terminal are spelled out, so that a log shows them and does not obey. -/
def escape (c : Char) : List Char :=
  if isCommand c then
    let digits := Text.hexByte c.toNat
    if c.toNat < 0x80 then '\\' :: 'x' :: digits
    else ['\\', 'u', '\x7b'] ++ digits ++ ['\x7d']
  else [c]

def render (line : LogLine) : String :=
  line.level.name ++ " " ++ String.ofList (line.text.toList.flatMap escape)

def visible (level : LogLevel) (lines : List LogLine) : List LogLine :=
  lines.filter fun line => level.rank ≤ line.level.rank

end LogLine

/-- What the log says about a withdrawal before it says that there was one. -/
def Withdrawal.logLines : Withdrawal → List LogLine
  | disabled => []
  | settingsMissing => [.warn "Prayer settings no longer available"]
  | settingsFailed e => [.warn s!"Failed to re-read prayer settings: {e}"]
  | flagsFailed e => [.warn s!"Failed to re-read feature flags: {e}"]

namespace Action

def event? : Action → Option EngineEvent
  | started => some .started
  | suppressed r _ => some (.suppressed r.key)
  | withdrawn r _ => some (.withdrawn r.key)
  | skipped e => some (.skipped e.key)
  | rebuilt _ armedCount pastCount goneCount => some (.rebuilt armedCount pastCount goneCount)
  | rebuildFailed e => some (.rebuildFailed e)
  | stopped _ => some (.stopped "Shutdown signal")
  | _ => none

def delivery? : Action → Option (Registration × String)
  | handedOff r file _ => some (r, file)
  | _ => none

/-- A failed load is nothing to worry about while the inputs are only not there yet. -/
def failureLine (e : Error) : LogLine :=
  if e.isSoft then .warn s!"Not scheduling prayer timers: {e}"
  else .error s!"Failed to load prayer schedule inputs: {e}"

def withdrawalLine (r : Registration) : LogLine :=
  let name := (r.event.prayer.map Prayer.name).getD ""
  .info s!"Announcement for {name} was disabled since scheduling, skipping"

/-- What the log says of an action; `source` and `notifier` are the names of the collaborators. -/
def logLines (source notifier : String) : Action → List LogLine
  | started => [.info s!"Prayer scheduler started (source: {source}, notifier: {notifier})"]
  | changed change => [.info s!"{change.message}, rescheduling"]
  | rescheduling reason => [.info s!"Rescheduling: {reason}"]
  | rolledOver _ _ => [.info "New day, rebuilding prayer schedule"]
  | suppressed r elapsed =>
    let window : Int := Debounce.windowMillis
    [.info s!"Skipping {r.key}: last run {elapsed}ms ago (window {window}ms)"]
  | withdrawn r cause => cause.logLines ++ [withdrawalLine r]
  | ignored r =>
    let kind := r.event.kind.name
    [.warn s!"{kind} event {r.key} has no prayer, ignoring"]
  | unvoiced r => [.warn s!"No audio file configured for {r.key}"]
  | handedOff r file _ => [.info s!"Firing {r.key} ({file})"]
  | cleared count => [.info s!"Cleared {count} timer(s) on request"]
  | misread complaint => [.warn s!"{complaint}; using 00:00"]
  | untimed p atIqamah =>
    let slot := if atIqamah then "iqamah" else "start"
    [.warn s!"No {slot} time for {p}, skipping"]
  | rebuilt date armedCount pastCount goneCount =>
    let others := s!"({pastCount} skipped, {goneCount} cancelled)"
    [.info s!"Scheduled {armedCount} timer(s) for {date} {others}"]
  | rebuildFailed e => [failureLine e]
  | signalled => [.info "Shutdown signal received"]
  | stopped count => [.info s!"Prayer scheduler stopped, {count} timer(s) cancelled"]
  | stale _ => []
  | superseded _ => []
  | cancelled _ => []
  | loading _ => []
  | skipped _ => []
  | armed _ => []

end Action

end Muezzin
