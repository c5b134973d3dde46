import Muezzin.Calendar.Instant
import Muezzin.Error

/-!
# Times of day

A time of day is a whole number of minutes after midnight, below 1440. It becomes an instant on a
date in a zone, and every instant shows the time of day of the minute that contains it.
-/

namespace Muezzin

structure TimeOfDay where
  minutes : Nat
  minutes_lt : minutes < 1440
  deriving DecidableEq, Repr

namespace TimeOfDay

def midnight : TimeOfDay := ⟨0, by decide⟩

instance : Inhabited TimeOfDay := ⟨midnight⟩

theorem eq_of_minutes_eq {t u : TimeOfDay} (hsame : t.minutes = u.minutes) : t = u := by
  cases t
  cases u
  congr

def new? (hour minute : Nat) : Option TimeOfDay :=
  if h : hour < 24 ∧ minute < 60 then some ⟨hour * 60 + minute, by omega⟩ else none

/-- The time that a clock shows `n` minutes after a midnight, before it for negative `n`. -/
def wrap (n : Int) : TimeOfDay :=
  ⟨(n % 1440).toNat, by omega⟩

theorem minutes_wrap (n : Int) : ((wrap n).minutes : Int) = n % 1440 := by
  show (((n % 1440).toNat : Nat) : Int) = n % 1440
  omega

def hour (t : TimeOfDay) : Nat := t.minutes / 60

def minute (t : TimeOfDay) : Nat := t.minutes % 60

def addMinutes (t : TimeOfDay) (n : Int) : TimeOfDay :=
  wrap (t.minutes + n)

def render (t : TimeOfDay) : String :=
  Text.padLeft 2 t.hour ++ ":" ++ Text.padLeft 2 t.minute

instance : ToString TimeOfDay := ⟨render⟩

/-- One part of a time: at most two bytes between blanks, a number up to `limit`. -/
def readPart (limit : Nat) (part : List Char) : Except TimeFault Nat :=
  let part := Text.trim part
  if part.isEmpty || 2 < Text.byteLength part then .error .malformed
  else
    match Text.readInteger 0 4294967295 part with
    | .error _ => .error .malformed
    | .ok n => if n.toNat ≤ limit then .ok n.toNat else .error .outOfRange

/-- Hours and minutes, and seconds that are checked and have no influence. -/
def readParts : List (List Char) → Except TimeFault (Nat × Nat)
  | [hours, minutes] => do
    let h ← readPart 23 hours
    let m ← readPart 59 minutes
    .ok (h, m)
  | hours :: minutes :: seconds :: rest => do
    let h ← readPart 23 hours
    let m ← readPart 59 minutes
    let _ ← readPart 59 seconds
    if rest.isEmpty then .ok (h, m) else .error .tooManyParts
  | [hours] => do
    let _ ← readPart 23 hours
    .error .malformed
  | [] => .error .malformed

def read (cs : List Char) : Except TimeFault TimeOfDay := do
  let (h, m) ← readParts (Text.fields ':' (Text.trim cs))
  match new? h m with
  | some t => .ok t
  | none => .error .outOfRange

/-- Reads `HH:MM` or `HH:MM:SS`. An error quotes the whole input. -/
def parse (input : String) : Except Error TimeOfDay :=
  (read input.toList).mapError (.badTime input)

def on (t : TimeOfDay) (date : Date) (zone : Zone) : Instant :=
  Instant.ofLocal date (millisPerMinute * t.minutes) zone

def ofInstant (t : Instant) : TimeOfDay :=
  wrap (t.millisOfDay / millisPerMinute)

end TimeOfDay

end Muezzin
