import Muezzin.Host
import Muezzin.Json.Domain
import Muezzin.Memory

/-!
# What a schedule is built from

The times of a date, the switches of the prayers and the global switches come from elsewhere: from
memory, from files that are read anew each time, or from something else that may fail. The engine
sees all of them as what they answer when they are asked. Handling one message asks for the times
and the switches of a date at most once, and for the switches once more with each announcement that
comes due, so every question has an answer of its own.
-/

namespace Muezzin

structure PrayerSource where
  /-- The times of a date; nothing if they are not known yet. -/
  times : Date → Except Error (Option PrayerTimes)
  /-- Texts of a date that are no times and count as midnight. -/
  complaints : Date → List Error := fun _ => []

structure SettingsStore where
  /-- The switches of the prayers; nothing if they have not been loaded yet. -/
  settings : Except Error (Option PrayerSettings)
  flags : Except Error FeatureFlags

/-- What is answered while one message is handled. -/
structure Inputs extends PrayerSource, SettingsStore where
  /-- What the store answers when the announcement for a prayer is checked. -/
  recheck : Prayer → SettingsStore := fun _ => toSettingsStore

/-- The store answers the same whenever it is asked. -/
def Inputs.steady (source : PrayerSource) (store : SettingsStore) : Inputs where
  toPrayerSource := source
  toSettingsStore := store

structure DayInputs where
  times : PrayerTimes
  settings : PrayerSettings
  flags : FeatureFlags
  deriving DecidableEq, Repr

inductive Withdrawal where
  | disabled
  | settingsMissing
  | settingsFailed (e : Error)
  | flagsFailed (e : Error)
  deriving DecidableEq, Repr

namespace Inputs

/-- Asks for the times, the switches and the flags in this order; the first failure counts, and a
missing value is one. -/
def load (inputs : Inputs) (date : Date) : Except Error DayInputs := do
  let some times ← inputs.times date | .error (.noTimes date)
  let some settings ← inputs.settings | .error .settingsNotLoaded
  let flags ← inputs.flags
  .ok ⟨times, settings, flags⟩

/-- Whether the announcement for a prayer is to be made at this moment, and why not. -/
def withdrawal? (inputs : Inputs) (p : Prayer) : Option Withdrawal :=
  match (inputs.recheck p).settings with
  | .error e => some (.settingsFailed e)
  | .ok none => some .settingsMissing
  | .ok (some settings) =>
    match (inputs.recheck p).flags with
    | .error e => some (.flagsFailed e)
    | .ok flags =>
      if (Enablement.resolve flags (PrayerSettings.toggles settings p)).announcement then none
      else some .disabled

end Inputs

structure TimesFile where
  path : String
  deriving DecidableEq, Repr

namespace TimesFile

def read (file : TimesFile) (host : Host) : Except Error (Option Timetable) :=
  (host.readDocument Timetable.decoder file.path).mapError (.timetableUnreadable file.path)

/-- The times of a date; a missing file knows no date. -/
def timesOn (file : TimesFile) (host : Host) (date : Date) : Except Error (Option PrayerTimes) := do
  match ← file.read host with
  | none => .ok none
  | some table => table.timesOn date

def complaintsOn (file : TimesFile) (host : Host) (date : Date) : List Error :=
  match file.read host with
  | .ok (some table) => table.complaintsOn date
  | _ => []

def source (file : TimesFile) (host : Host) : PrayerSource :=
  ⟨file.timesOn host, file.complaintsOn host⟩

end TimesFile

structure SettingsFile where
  path : String
  deriving DecidableEq, Repr

namespace SettingsFile

def read (file : SettingsFile) (host : Host) : Except Error (Option SavedSettings) :=
  (host.readDocument SavedSettings.decoder file.path).mapError (.settingsUnreadable file.path)

def settings (file : SettingsFile) (host : Host) : Except Error (Option PrayerSettings) := do
  match ← file.read host with
  | none => .ok none
  | some saved => .ok saved.prayers

/-- The global switches; a missing file has everything off. -/
def flags (file : SettingsFile) (host : Host) : Except Error FeatureFlags := do
  match ← file.read host with
  | none => .ok {}
  | some saved => .ok saved.flags

def store (file : SettingsFile) (host : Host) : SettingsStore :=
  ⟨file.settings host, file.flags host⟩

end SettingsFile

def MemoryTimes.source (m : MemoryTimes) : PrayerSource :=
  { times := fun date => .ok (m.timesOn date) }

def MemorySettings.store (m : MemorySettings) : SettingsStore :=
  ⟨.ok m.prayers, .ok m.flags⟩

namespace Storage

/-- The prayer times that are kept there. A configured memory is empty and stays so. -/
def source (host : Host) : Storage → PrayerSource
  | .file path => TimesFile.source ⟨path⟩ host
  | .memory => MemoryTimes.empty.source

def store (host : Host) : Storage → SettingsStore
  | .file path => SettingsFile.store ⟨path⟩ host
  | .memory => MemorySettings.empty.store

end Storage

def SchedulerConfig.inputs (config : SchedulerConfig) (host : Host) : Inputs :=
  .steady (config.prayerSource.source host) (config.settingsStore.store host)

end Muezzin
