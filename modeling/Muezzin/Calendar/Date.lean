import Muezzin.Text.Numeral

/-!
# Dates of the proleptic Gregorian calendar

A date is the number of days since 1 January 1970. Its year, month and day are a view of that
number, and the other way round; counting both in years that begin on 1 March makes the leap day
the last day of a year, so four centuries, a century, four years and a year are plain mixed radix
with a shorter last digit. The calendar ends on 31 December 262142, which has no successor, and
begins on 1 January −262143.
-/

namespace Muezzin

/-- A calendar date, as days since 1 January 1970. -/
structure Date where
  dayNumber : Int
  deriving DecidableEq, Repr, Inhabited

/-- Year, month and day of a date; year 0 is the year before year 1. -/
structure Civil where
  year : Int
  month : Nat
  day : Nat
  deriving DecidableEq, Repr

namespace Civil

def isLeap (year : Int) : Bool :=
  year % 4 == 0 && (year % 100 != 0 || year % 400 == 0)

def daysIn (year : Int) (month : Nat) : Nat :=
  if month = 2 then
    if isLeap year then 29 else 28
  else if month = 4 ∨ month = 6 ∨ month = 9 ∨ month = 11 then 30
  else 31

def Exists (c : Civil) : Prop :=
  1 ≤ c.month ∧ c.month ≤ 12 ∧ 1 ≤ c.day ∧ c.day ≤ daysIn c.year c.month

instance (c : Civil) : Decidable c.Exists :=
  inferInstanceAs (Decidable (_ ∧ _ ∧ _ ∧ _))

/-- The day after, reading on into the next month and the next year. -/
def next (c : Civil) : Civil :=
  if c.day < daysIn c.year c.month then { c with day := c.day + 1 }
  else if c.month < 12 then ⟨c.year, c.month + 1, 1⟩
  else ⟨c.year + 1, 1, 1⟩

/-- Days from 1 March of year 0 to 1 January 1970. -/
def epochShift : Int := 719468

def dayNumber (c : Civil) : Int :=
  let marchYear := if c.month ≤ 2 then c.year - 1 else c.year
  let marchMonth : Int := if c.month ≤ 2 then c.month + 9 else c.month - 3
  let dayOfYear := (153 * marchMonth + 2) / 5 + c.day - 1
  365 * marchYear + marchYear / 4 - marchYear / 100 + marchYear / 400 + dayOfYear - epochShift

end Civil

namespace Date

def first : Date := ⟨Civil.dayNumber ⟨-262143, 1, 1⟩⟩

def last : Date := ⟨Civil.dayNumber ⟨262142, 12, 31⟩⟩

def ofCivil? (c : Civil) : Option Date :=
  if c.Exists ∧ -262143 ≤ c.year ∧ c.year ≤ 262142 then some ⟨c.dayNumber⟩ else none

/-- Year, month and day of a date. A century has 36524 days but the last of four has one more, and
a year has 365 days but the last of four has one more, which is why two digits are cut at 3. -/
def civil (d : Date) : Civil :=
  let sinceMarch := d.dayNumber + Civil.epochShift
  let era := sinceMarch / 146097
  let dayOfEra := sinceMarch % 146097
  let century := min (dayOfEra / 36524) 3
  let dayOfCentury := dayOfEra - 36524 * century
  let quad := dayOfCentury / 1461
  let dayOfQuad := dayOfCentury % 1461
  let yearOfQuad := min (dayOfQuad / 365) 3
  let dayOfYear := dayOfQuad - 365 * yearOfQuad
  let marchYear := 400 * era + 100 * century + 4 * quad + yearOfQuad
  let marchMonth := (5 * dayOfYear + 2) / 153
  let day := dayOfYear - (153 * marchMonth + 2) / 5 + 1
  if marchMonth < 10 then ⟨marchYear, (marchMonth + 3).toNat, day.toNat⟩
  else ⟨marchYear + 1, (marchMonth - 9).toNat, day.toNat⟩

def next? (d : Date) : Option Date :=
  if d.dayNumber < last.dayNumber then some ⟨d.dayNumber + 1⟩ else none

instance : Ord Date := ⟨fun a b => compare a.dayNumber b.dayNumber⟩

instance : Std.TransOrd Date where
  eq_swap {a b} :=
    (Std.OrientedCmp.eq_swap : compare a.dayNumber b.dayNumber = _)
  isLE_trans {a b c} (h : (compare a.dayNumber b.dayNumber).isLE) h' :=
    (Std.TransCmp.isLE_trans h h' : (compare a.dayNumber c.dayNumber).isLE)

instance : Std.LawfulEqOrd Date where
  eq_of_compare {a b} h := by
    cases a
    cases b
    exact congrArg Date.mk (Std.LawfulEqOrd.eq_of_compare h)

instance : LT Date := ⟨fun a b => a.dayNumber < b.dayNumber⟩
instance : LE Date := ⟨fun a b => a.dayNumber ≤ b.dayNumber⟩
instance (a b : Date) : Decidable (a < b) := inferInstanceAs (Decidable (a.dayNumber < b.dayNumber))
instance (a b : Date) : Decidable (a ≤ b) := inferInstanceAs (Decidable (a.dayNumber ≤ b.dayNumber))

/-- Every date but the last has a successor, and that is one day on. -/
theorem next?_eq_some_iff {d e : Date} :
    d.next? = some e ↔ d < last ∧ e.dayNumber = d.dayNumber + 1 := by
  unfold next?
  split
  · next hbefore =>
    constructor
    · rintro ⟨⟩
      exact ⟨hbefore, rfl⟩
    · rintro ⟨-, hnumber⟩
      exact congrArg some (congrArg mk hnumber.symm)
  · next hafter => exact ⟨nofun, fun h => absurd h.1 hafter⟩

theorem lt_of_next? {d e : Date} (hsuccessor : d.next? = some e) : d < e := by
  have hnumber := (next?_eq_some_iff.1 hsuccessor).2
  show d.dayNumber < e.dayNumber
  omega

theorem isSome_next?_of_le {a b : Date} (honward : a ≤ b) (hsuccessor : b.next?.isSome) :
    a.next?.isSome := by
  obtain ⟨date, hnext⟩ := Option.isSome_iff_exists.1 hsuccessor
  have hbefore := (next?_eq_some_iff.1 hnext).1
  refine Option.isSome_iff_exists.2 ⟨⟨a.dayNumber + 1⟩, ?_⟩
  exact next?_eq_some_iff.2 ⟨Int.lt_of_le_of_lt honward hbefore, rfl⟩

/-- A year of four digits is written plainly, any other with its sign and at least four digits. -/
def renderYear (year : Int) : String :=
  if 0 ≤ year ∧ year ≤ 9999 then Text.padLeft 4 year.toNat
  else (if year < 0 then "-" else "+") ++ Text.padLeft 4 year.natAbs

/-- Written `YYYY-MM-DD`. -/
def render (d : Date) : String :=
  let c := d.civil
  renderYear c.year ++ "-" ++ Text.padLeft 2 c.month ++ "-" ++ Text.padLeft 2 c.day

instance : ToString Date := ⟨render⟩

/-- Three letters for the day of the week. -/
def weekday (d : Date) : String :=
  match (d.dayNumber % 7).toNat with
  | 0 => "Thu"
  | 1 => "Fri"
  | 2 => "Sat"
  | 3 => "Sun"
  | 4 => "Mon"
  | 5 => "Tue"
  | _ => "Wed"

/-- At least one and at most `width` leading digits, and what follows them. -/
def digitsUpTo (width : Nat) (cs : List Char) : Option (Nat × List Char) :=
  let digits := (cs.take width).takeWhile Char.isDigit
  if digits.isEmpty then none
  else some (digits.foldl (fun n c => n * 10 + (c.toNat - '0'.toNat)) 0, cs.drop digits.length)

/-- A year: four digits at most, or a sign and any number of digits. -/
def yearDigits (cs : List Char) : Option (Int × List Char) :=
  match cs with
  | '-' :: rest => (digitsUpTo rest.length rest).map fun (n, r) => (-(n : Int), r)
  | '+' :: rest => (digitsUpTo rest.length rest).map fun (n, r) => ((n : Int), r)
  | _ => (digitsUpTo 4 cs).map fun (n, r) => ((n : Int), r)

/-- A hyphen that may have blanks before it. -/
def hyphen (cs : List Char) : Option (List Char) :=
  match Text.trimStart cs with
  | '-' :: rest => some rest
  | _ => none

/-- Reads year, month and day with hyphens between them. Blanks may stand before each part and at
the end, and the month and the day may have one digit. -/
def parse? (text : String) : Option Date := do
  let (year, rest) ← yearDigits (Text.trimStart text.toList)
  let rest ← hyphen rest
  let (month, rest) ← digitsUpTo 2 (Text.trimStart rest)
  let rest ← hyphen rest
  let (day, rest) ← digitsUpTo 2 (Text.trimStart rest)
  if Text.allBlank rest then ofCivil? ⟨year, month, day⟩ else none

end Date

end Muezzin
