import Muezzin.Iqamah
import Muezzin.SortedMap

/-!
# The times of one day

A day has a start time for some of the six slots and an iqamah time for some of the five prayers
with a congregation. A timetable hands in raw texts; several of its names may mean one slot, and
then the last in the order of the names decides.
-/

namespace Muezzin

structure PrayerTimes where
  starts : PrayerTable TimeOfDay
  iqamahs : PrayerTable TimeOfDay
  iqamahs_sunrise : iqamahs.get? .sunrise = none
  deriving DecidableEq, Repr

abbrev RawTimes := SortedMap String String

namespace PrayerTimes

/-- Sunrise has no iqamah, whatever the table says. -/
def new (starts iqamahs : PrayerTable TimeOfDay) : PrayerTimes :=
  ⟨starts, iqamahs.erase .sunrise, rfl⟩

instance : Inhabited PrayerTimes := ⟨new .empty .empty⟩

/-- The iqamah times follow from the start times. -/
def ofStarts (starts : PrayerTable TimeOfDay) (offsets : IqamahOffsets) : PrayerTimes :=
  new starts (starts.map fun p azan => Iqamah.time azan (IqamahOffsets.minutes offsets p) p)

/-- Enters the times one after another; a later one replaces an earlier one of the same slot. -/
def enter (table : PrayerTable TimeOfDay) :
    List (String × String) → Except Error (PrayerTable TimeOfDay)
  | [] => .ok table
  | (name, text) :: rest =>
    match Prayer.parse name with
    | .error e => .error e
    | .ok p => enter (table.insert p (Iqamah.azanOrMidnight text)) rest

/-- A name that means no slot fails the day; a text that is no time counts as midnight. -/
def ofRaw (raw : RawTimes) (offsets : IqamahOffsets) : Except Error PrayerTimes := do
  let starts ← enter .empty raw.toList
  .ok (ofStarts starts offsets)

/-- The texts that count as midnight, up to the first name that means no slot. -/
def complaints (raw : RawTimes) : List Error :=
  (raw.toList.takeWhile fun (name, _) => (Prayer.parse name).isOk).filterMap
    fun (_, text) =>
      match TimeOfDay.parse text with
      | .ok _ => none
      | .error e => some e

end PrayerTimes

end Muezzin
