import Muezzin.Calendar.Date

/-!
# Instants in a fixed zone

An instant is a number of milliseconds since the start of 1970 in UTC together with the zone it is
read in. Instants are compared by the time they denote, whatever their zones; the zone only decides
which local date and which time of day they show.

The number has no bounds here. The program has instants of the calendar only (`InCalendar`), and
breaks off where a sum or a local time would leave it.
-/

namespace Muezzin

/-- A fixed distance from UTC in seconds, positive to the east. -/
structure Zone where
  east : Int
  deriving DecidableEq, Repr, Inhabited

namespace Zone

def utc : Zone := ⟨0⟩

def ofMinutes (minutes : Int) : Zone := ⟨60 * minutes⟩

/-- Written `+HH:MM`, with seconds only if there are some. -/
def render (z : Zone) : String :=
  let size := z.east.natAbs
  let hoursMinutes := Text.padLeft 2 (size / 3600) ++ ":" ++ Text.padLeft 2 (size / 60 % 60)
  (if z.east < 0 then "-" else "+") ++ hoursMinutes ++
    (if size % 60 = 0 then "" else ":" ++ Text.padLeft 2 (size % 60))

end Zone

def millisPerMinute : Int := 60000
def millisPerDay : Int := 86400000

structure Instant where
  /-- Milliseconds since the start of 1970 in UTC. -/
  millis : Int
  zone : Zone
  deriving DecidableEq, Repr, Inhabited

namespace Instant

instance : LT Instant := ⟨fun a b => a.millis < b.millis⟩
instance : LE Instant := ⟨fun a b => a.millis ≤ b.millis⟩
instance (a b : Instant) : Decidable (a < b) := inferInstanceAs (Decidable (a.millis < b.millis))
instance (a b : Instant) : Decidable (a ≤ b) := inferInstanceAs (Decidable (a.millis ≤ b.millis))

def localMillis (t : Instant) : Int :=
  t.millis + 1000 * t.zone.east

def date (t : Instant) : Date :=
  ⟨t.localMillis / millisPerDay⟩

def millisOfDay (t : Instant) : Int :=
  t.localMillis % millisPerDay

/-- The local date and that of UTC are dates of the calendar. -/
def InCalendar (t : Instant) : Prop :=
  (Date.first ≤ t.date ∧ t.date ≤ Date.last) ∧
    Date.first ≤ { t with zone := .utc }.date ∧ { t with zone := .utc }.date ≤ Date.last

instance (t : Instant) : Decidable t.InCalendar :=
  inferInstanceAs (Decidable ((_ ∧ _) ∧ _ ∧ _))

/-- The instant at which a clock in `zone` shows the date and `millisOfDay`. -/
def ofLocal (date : Date) (millisOfDay : Int) (zone : Zone) : Instant :=
  ⟨millisPerDay * date.dayNumber + millisOfDay - 1000 * zone.east, zone⟩

def addMillis (t : Instant) (n : Int) : Instant :=
  { t with millis := t.millis + n }

def addMinutes (t : Instant) (n : Int) : Instant :=
  t.addMillis (millisPerMinute * n)

/-- The later of the two, the first if they denote the same time. -/
def later (a b : Instant) : Instant :=
  if a < b then b else a

/-- The local reading as `HH:MM`. -/
def renderClock (t : Instant) : String :=
  let minutes := (t.millisOfDay / millisPerMinute).toNat
  Text.padLeft 2 (minutes / 60) ++ ":" ++ Text.padLeft 2 (minutes % 60)

/-- Written `YYYY-MM-DDTHH:MM:SS.mmm+HH:MM`. -/
def render (t : Instant) : String :=
  let millis := t.millisOfDay.toNat
  t.date.render ++ "T" ++ t.renderClock ++ ":" ++ Text.padLeft 2 (millis / 1000 % 60) ++ "." ++
    Text.padLeft 3 (millis % 1000) ++ t.zone.render

instance : ToString Instant := ⟨render⟩

private def twoDigits : List Char → Option (Nat × List Char)
  | a :: b :: rest => do
    let tens ← Text.digit? a
    let ones ← Text.digit? b
    some (10 * tens + ones, rest)
  | _ => none

/-- Two digits below `limit`. -/
private def clockPart (limit : Nat) (cs : List Char) : Option (Nat × List Char) := do
  let (n, rest) ← twoDigits cs
  if n < limit then some (n, rest) else none

private def colon : List Char → Option (List Char)
  | ':' :: rest => some rest
  | _ => none

/-- Milliseconds after a decimal point; digits beyond the third have no influence. -/
private def fraction (cs : List Char) : Option (Nat × List Char) :=
  match cs with
  | '.' :: rest =>
    let digits := rest.takeWhile Char.isDigit
    let three := (digits ++ ['0', '0', '0']).take 3
    if digits.isEmpty then none
    else some (three.foldl (fun n c => n * 10 + (c.toNat - '0'.toNat)) 0, rest.drop digits.length)
  | _ => some (0, cs)

/-- The zone at the end of an instant's text; `zone` if nothing is left. -/
private def zonePart (zone : Zone) (cs : List Char) : Option Zone :=
  match cs with
  | [] => some zone
  | sign :: rest => do
    let factor : Int ← if sign = '+' then some 1 else if sign = '-' then some (-1) else none
    let (hours, rest) ← clockPart 24 rest
    let rest ← colon rest
    let (minutes, rest) ← clockPart 60 rest
    if rest.isEmpty then some (Zone.ofMinutes (factor * (60 * hours + minutes))) else none

/-- Reads `YYYY-MM-DDTHH:MM:SS`, an optional decimal fraction and an optional `+HH:MM`; without the
latter the text is local time in `zone`. -/
def parse? (zone : Zone) (text : String) : Option Instant := do
  let cs := text.toList
  let date ← Date.parse? (String.ofList (cs.takeWhile (· != 'T')))
  let (hour, rest) ← clockPart 24 ((cs.dropWhile (· != 'T')).drop 1)
  let rest ← colon rest
  let (minute, rest) ← clockPart 60 rest
  let rest ← colon rest
  let (second, rest) ← clockPart 60 rest
  let (millis, rest) ← fraction rest
  let zone ← zonePart zone rest
  some (ofLocal date (((hour * 60 + minute) * 60 + second) * 1000 + millis) zone)

end Instant

end Muezzin
