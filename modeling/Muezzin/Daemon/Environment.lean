import Muezzin.Config
import Muezzin.Engine.Report
import Muezzin.Host
import Muezzin.Host.Path

/-!
# The configuration of the daemon

The daemon is configured by environment variables. A variable that is unset or blank counts as
absent, except for the log level. Numbers and times are read first; then the daemon checks that its
files are named, that their directories exist, and that the rest makes sense. The files themselves
may come into being later.
-/

namespace Muezzin

structure Environment where
  get? : String → Option String

inductive ValueFault where
  | numeral (fault : Text.NumeralFault)
  | time (e : Error)
  deriving DecidableEq, Repr

def ValueFault.message : ValueFault → String
  | .numeral fault => fault.message
  | .time e => e.message

inductive StartError where
  | badValue (name value : String) (fault : ValueFault)
  | required (name sample : String)
  | noParent (name parent : String)
  | noAudioDir (dir : String)
  | badLogLevel (level : String)
  | badConfig (e : Error)
  deriving DecidableEq, Repr

namespace StartError

def message : StartError → String
  | badValue name value fault => name ++ " '" ++ value ++ "' is not valid: " ++ fault.message
  | required name sample =>
    name ++ " is required. Set it via: export " ++ name ++ "=" ++ sample
  | noParent name parent =>
    name ++ " parent directory does not exist: " ++ parent ++
      ". Create it first: sudo mkdir -p " ++ parent
  | noAudioDir dir => "IQAMAH_AUDIO_DIR is not a directory: " ++ dir
  | badLogLevel level =>
    "IQAMAH_LOG_LEVEL '" ++ level ++ "' is not valid. Valid levels: trace, debug, info, warn, error"
  | badConfig e => "Invalid scheduler configuration: " ++ e.message

/-- The error arose while the variables were read, before anything was checked. -/
def isUnreadable : StartError → Bool
  | badValue _ _ _ => true
  | _ => false

def complaint (e : StartError) : String :=
  let subject := if e.isUnreadable then "Configuration error" else "Configuration validation error"
  subject ++ ": " ++ e.message

end StartError

structure DaemonConfig where
  timesFile : Option String := none
  settingsFile : Option String := none
  utcOffsetMinutes : Int32 := 0
  rolloverTime : TimeOfDay := .midnight
  clockOffsetSecs : Int64 := 0
  player : Option String := none
  playerArgs : List String := []
  audioDir : Option String := none
  azanFile : Option String := none
  fajrAzanFile : Option String := none
  /-- As it was given. -/
  logLevel : String := "info"
  deriving DecidableEq, Repr

namespace Environment

/-- The value of a variable; a blank one counts as unset. -/
def present? (env : Environment) (name : String) : Option String :=
  (env.get? name).filter fun value => !Text.allBlank value.toList

def parsed {α : Type} (env : Environment) (name : String) (fallback : α)
    (read : List Char → Except ValueFault α) : Except StartError α :=
  match env.present? name with
  | none => .ok fallback
  | some value => (read (Text.trim value.toList)).mapError (.badValue name value)

end Environment

namespace DaemonConfig

def timesVariable : String := "IQAMAH_TIMES_FILE"
def settingsVariable : String := "IQAMAH_SETTINGS_FILE"
def offsetVariable : String := "IQAMAH_UTC_OFFSET_MINUTES"
def rolloverVariable : String := "IQAMAH_ROLLOVER_TIME"
def shiftVariable : String := "IQAMAH_CLOCK_OFFSET_SECS"
def audioVariable : String := "IQAMAH_AUDIO_DIR"
def levelVariable : String := "IQAMAH_LOG_LEVEL"

def readOffset (cs : List Char) : Except ValueFault Int32 :=
  ((Text.readInt32 cs).map Int32.ofInt).mapError .numeral

def readShift (cs : List Char) : Except ValueFault Int64 :=
  ((Text.readInt64 cs).map Int64.ofInt).mapError .numeral

def readRollover (cs : List Char) : Except ValueFault TimeOfDay :=
  (TimeOfDay.parse (String.ofList cs)).mapError .time

/-- The configuration with the values that have to be read; the others are taken as they are. -/
def ofValues (env : Environment) (utcOffsetMinutes : Int32) (rolloverTime : TimeOfDay)
    (clockOffsetSecs : Int64) : DaemonConfig :=
  let args := (env.present? "IQAMAH_PLAYER_ARGS").getD ""
  { utcOffsetMinutes, rolloverTime, clockOffsetSecs
    timesFile := env.present? timesVariable
    settingsFile := env.present? settingsVariable
    player := env.present? "IQAMAH_PLAYER_COMMAND"
    playerArgs := (Text.words args.toList).map String.ofList
    audioDir := env.present? audioVariable
    azanFile := env.present? "IQAMAH_AZAN_FILE"
    fajrAzanFile := env.present? "IQAMAH_FAJR_AZAN_FILE"
    logLevel := (env.get? levelVariable).getD "info" }

def ofEnvironment (env : Environment) : Except StartError DaemonConfig := do
  let utcOffsetMinutes ← env.parsed offsetVariable 0 readOffset
  let rolloverTime ← env.parsed rolloverVariable .midnight readRollover
  let clockOffsetSecs ← env.parsed shiftVariable 0 readShift
  .ok (ofValues env utcOffsetMinutes rolloverTime clockOffsetSecs)

def scheduler (c : DaemonConfig) : SchedulerConfig :=
  let audio : AudioConfig := {}
  { prayerSource := c.timesFile.elim .memory .file
    settingsStore := c.settingsFile.elim .memory .file
    notifier :=
      match c.player with
      | some program => .command program c.playerArgs c.audioDir
      | none => .log
    audio :=
      { audio with
        azanFile := c.azanFile.getD audio.azanFile
        fajrAzanFile := c.fajrAzanFile.getD audio.fajrAzanFile }
    engine :=
      { utcOffsetMinutes := c.utcOffsetMinutes, clockOffsetSecs := c.clockOffsetSecs
        rolloverTime := c.rolloverTime } }

def requireFile (name sample : String) : Option String → Except StartError String
  | some path => .ok path
  | none => .error (.required name sample)

/-- The directory of a file exists. The working directory needs no name and always does. -/
def checkParent (host : Host) (name path : String) : Except StartError Unit :=
  match Path.parent? path with
  | some parent =>
    if !parent.isEmpty && !host.pathExists parent then .error (.noParent name parent) else .ok ()
  | none => .ok ()

def checkPaths (c : DaemonConfig) (host : Host) : Except StartError Unit := do
  let times ← requireFile timesVariable "/var/lib/iqamah/times.json" c.timesFile
  let settings ← requireFile settingsVariable "/var/lib/iqamah/settings.json" c.settingsFile
  checkParent host timesVariable times
  checkParent host settingsVariable settings
  match c.audioDir with
  | some dir => if host.isDirectory dir then .ok () else .error (.noAudioDir dir)
  | none => .ok ()

def checkValues (c : DaemonConfig) : Except StartError Unit := do
  if (LogLevel.ofName? c.logLevel).isNone then .error (.badLogLevel c.logLevel)
  c.scheduler.validate.mapError .badConfig

def warnings (c : DaemonConfig) : List String :=
  if c.audioDir.isSome && c.player.isNone then
    ["WARNING: IQAMAH_AUDIO_DIR is set but IQAMAH_PLAYER_COMMAND is not; " ++
      "audio will only be logged."]
  else []

def validate (c : DaemonConfig) (host : Host) : Except StartError Unit := do
  c.checkPaths host
  c.checkValues

def errorMessages (c : DaemonConfig) (host : Host) : List String :=
  match c.checkPaths host with
  | .error e => [e.complaint]
  | .ok _ =>
    match c.checkValues with
    | .error e => c.warnings ++ [e.complaint]
    | .ok _ => c.warnings

def level (c : DaemonConfig) : LogLevel :=
  (LogLevel.ofName? c.logLevel).getD .info

end DaemonConfig

end Muezzin
