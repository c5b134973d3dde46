import Muezzin.PrayerTimes
import Muezzin.Settings

/-!
# What the data files hold

A timetable file lists raw azan times for some dates, may have a day for all other dates, and gives
the iqamah offsets that apply to every day. A settings file holds the global switches and, once they
have been saved, the switches of the prayers.
-/

namespace Muezzin

structure Timetable where
  offsets : IqamahOffsets := .empty
  days : SortedMap Date RawTimes := .empty
  /-- The day for dates without an entry. -/
  fallback : Option RawTimes := none
  deriving DecidableEq, Repr, Inhabited

namespace Timetable

/-- The raw day that answers for a date. -/
def rawOn (table : Timetable) (date : Date) : Option RawTimes :=
  (table.days.get? date).or table.fallback

/-- The times of a date, if the timetable knows any. Wrong offsets fail every date. -/
def timesOn (table : Timetable) (date : Date) : Except Error (Option PrayerTimes) := do
  table.offsets.validate
  match table.rawOn date with
  | none => .ok none
  | some raw => (PrayerTimes.ofRaw raw table.offsets).map some

def complaintsOn (table : Timetable) (date : Date) : List Error :=
  match table.offsets.validate, table.rawOn date with
  | .ok _, some raw => PrayerTimes.complaints raw
  | _, _ => []

end Timetable

structure SavedSettings where
  flags : FeatureFlags := {}
  prayers : Option PrayerSettings := none
  deriving DecidableEq, Repr, Inhabited

end Muezzin
