import Muezzin.TimeOfDay

/-!
# The iqamah calculator

The iqamah follows the azan by an offset of its own for each prayer. For maghrib it is exactly that
much later; for the others it is moved to the nearest quarter of an hour. Minutes are whole, so the
boundary between two quarters, seven and a half minutes after the first, falls between the seventh
minute and the eighth.
-/

namespace Muezzin

/-- Minutes between azan and iqamah; a prayer without an entry has none. -/
abbrev IqamahOffsets := PrayerTable Int32

namespace IqamahOffsets

def minutes (offsets : IqamahOffsets) (p : Prayer) : Int :=
  ((offsets.get? p).getD 0).toInt

/-- Sunrise has no offset, and an offset is at most two hours. -/
def checkEntry (p : Prayer) (minutes : Int) : Except Error Unit :=
  if !p.hasIqamah then .error .sunriseOffset
  else if 0 ≤ minutes ∧ minutes ≤ Error.maxOffsetMinutes then .ok ()
  else .error (.offsetOutOfRange p minutes)

/-- Reports the first wrong entry in the order of the day. -/
def validate (offsets : IqamahOffsets) : Except Error Unit :=
  offsets.toList.forM fun (p, minutes) => checkEntry p minutes.toInt

end IqamahOffsets

namespace Iqamah

/-- The minute of the hour moved to the nearest quarter; 60 is the next full hour. -/
def quarter (minute : Nat) : Nat :=
  if minute ≤ 7 then 0
  else if minute ≤ 22 then 15
  else if minute ≤ 37 then 30
  else if minute ≤ 52 then 45
  else 60

def roundToQuarter (t : TimeOfDay) : TimeOfDay :=
  TimeOfDay.wrap (t.hour * 60 + quarter t.minute)

def time (azan : TimeOfDay) (offset : Int) (p : Prayer) : TimeOfDay :=
  let raw := azan.addMinutes offset
  if p = .maghrib then raw else roundToQuarter raw

/-- The azan time of a text; one that is no time counts as midnight. -/
def azanOrMidnight (azan : String) : TimeOfDay :=
  match TimeOfDay.parse azan with
  | .ok t => t
  | .error _ => .midnight

def timeOfText (azan : String) (offset : Int) (p : Prayer) : TimeOfDay :=
  time (azanOrMidnight azan) offset p

end Iqamah

end Muezzin
