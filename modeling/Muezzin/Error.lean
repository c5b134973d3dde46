import Muezzin.Calendar.Date
import Muezzin.Prayer

/-!
# What can go wrong

Every error the library raises is a constructor that names its cause. Its kind and its wording are
functions of the cause, so no text is compared to tell errors apart. Errors of collaborators that
are not part of the library arrive as `reported`, with a kind and a text of their own.
-/

namespace Muezzin

inductive ErrorKind where
  /-- Prayer times or settings are not there yet; the schedule stays empty until they are. -/
  | unavailable
  | invalidTime
  | delivery
  | source
  | store
  | config
  | system
  | document
  | other
  deriving DecidableEq, Repr

def ErrorKind.heading : ErrorKind → String
  | .unavailable => "Configuration unavailable: "
  | .invalidTime => "Invalid time input: "
  | .delivery => "Notification delivery failed: "
  | .source => "Prayer source error: "
  | .store => "Settings store error: "
  | .config => "Configuration error: "
  | .system => "I/O error: "
  | .document => "JSON error: "
  | .other => ""

inductive TimeFault where
  | malformed
  | outOfRange
  | tooManyParts
  deriving DecidableEq, Repr

def TimeFault.complaint : TimeFault → String
  | .malformed => "is not HH:MM"
  | .outOfRange => "is out of range"
  | .tooManyParts => "has too many components"

inductive PathFault where
  | notFound
  | permissionDenied
  | notDirectory
  | isDirectory
  | nameTooLong
  | nulInName
  | nulInArgument
  | argumentTooLong
  deriving DecidableEq, Repr

def PathFault.message : PathFault → String
  | .notFound => "No such file or directory (os error 2)"
  | .permissionDenied => "Permission denied (os error 13)"
  | .notDirectory => "Not a directory (os error 20)"
  | .isDirectory => "Is a directory (os error 21)"
  | .nameTooLong => "File name too long (os error 36)"
  | .nulInName => "file name contained an unexpected NUL byte"
  | .nulInArgument => "nul byte found in provided data"
  | .argumentTooLong => "Argument list too long (os error 7)"

inductive ReadFault where
  | path (fault : PathFault)
  | notUtf8
  | notDocument
  deriving DecidableEq, Repr

def ReadFault.message : ReadFault → String
  | .path fault => ErrorKind.system.heading ++ fault.message
  | .notUtf8 => ErrorKind.system.heading ++ "stream did not contain valid UTF-8"
  | .notDocument => "JSON error"

inductive Error where
  | noTimes (date : Date)
  | settingsNotLoaded
  | badTime (input : String) (fault : TimeFault)
  | unknownPrayer (name : String)
  | sunriseOffset
  | offsetOutOfRange (prayer : Prayer) (minutes : Int)
  | emptyTimetablePath
  | emptySettingsPath
  | emptyPlayer
  | emptyAzanFile
  | missingAnnouncementFile (prayer : Prayer)
  | utcOffsetOutOfRange (minutes : Int)
  | noEventCapacity
  | timetableUnreadable (path : String) (fault : ReadFault)
  | settingsUnreadable (path : String) (fault : ReadFault)
  | audioNotFound (path : String)
  | playerNotStarted (program : String) (fault : PathFault)
  /-- An error of a collaborator, in its own words. -/
  | reported (kind : ErrorKind) (text : String)
  deriving DecidableEq, Repr

namespace Error

def maxOffsetMinutes : Int := 120

/-- The largest distance from UTC in minutes, that of UTC+14. -/
def maxUtcOffsetMinutes : Int := 840

def kind : Error → ErrorKind
  | noTimes _ => .unavailable
  | settingsNotLoaded => .unavailable
  | badTime _ _ => .invalidTime
  | unknownPrayer _ => .config
  | sunriseOffset => .config
  | offsetOutOfRange _ _ => .config
  | emptyTimetablePath => .config
  | emptySettingsPath => .config
  | emptyPlayer => .config
  | emptyAzanFile => .config
  | missingAnnouncementFile _ => .config
  | utcOffsetOutOfRange _ => .config
  | noEventCapacity => .config
  | timetableUnreadable _ _ => .source
  | settingsUnreadable _ _ => .store
  | audioNotFound _ => .delivery
  | playerNotStarted _ _ => .delivery
  | reported kind _ => kind

def detail : Error → String
  | noTimes date => "no prayer times for " ++ date.render
  | settingsNotLoaded => "prayer settings not loaded"
  | badTime input fault => "'" ++ input ++ "' " ++ fault.complaint
  | unknownPrayer name => "Unknown prayer name: " ++ name
  | sunriseOffset => "sunrise has no iqamah offset"
  | offsetOutOfRange prayer minutes =>
    s!"iqamah offset for {prayer} must be between 0 and {maxOffsetMinutes} minutes, got {minutes}"
  | emptyTimetablePath => "Prayer timetable path cannot be empty"
  | emptySettingsPath => "Settings file path cannot be empty"
  | emptyPlayer => "Player program cannot be empty"
  | emptyAzanFile => "Azan audio file names cannot be empty"
  | missingAnnouncementFile prayer => s!"Missing announcement audio file for {prayer}"
  | utcOffsetOutOfRange minutes =>
    s!"UTC offset must be within ±{maxUtcOffsetMinutes} minutes, got {minutes}"
  | noEventCapacity => "Event channel capacity must be > 0"
  | timetableUnreadable path fault => "Failed to read " ++ path ++ ": " ++ fault.message
  | settingsUnreadable path fault => "Failed to read " ++ path ++ ": " ++ fault.message
  | audioNotFound path => "Audio file not found: " ++ path
  | playerNotStarted program fault => "Failed to start " ++ program ++ ": " ++ fault.message
  | reported _ text => text

def message (e : Error) : String :=
  e.kind.heading ++ e.detail

instance : ToString Error := ⟨message⟩

/-- A soft error only says that the inputs are not there yet. -/
def isSoft (e : Error) : Bool :=
  e.kind == .unavailable

end Error

def Prayer.parse (text : String) : Except Error Prayer :=
  match Prayer.ofSpelling? (Prayer.foldName text) with
  | some p => .ok p
  | none => .error (.unknownPrayer (Prayer.foldName text))

end Muezzin
