import Muezzin.Schedule
import Muezzin.Timer.Timeline

/-!
# The registry of waiting events

Every event that waits has a registration and a timer on the registry's timeline. A key has at most
one registration, and a later one replaces it. The timer reports the key and the number of its
registration, so the report of a timer that has been replaced or cancelled in the meantime matches
no registration and is ignored.
-/

namespace Muezzin

structure Fire where
  key : String
  seq : Nat
  deriving DecidableEq, Repr

structure Registration where
  /-- Registrations are numbered in the order in which they are made, from 1. -/
  seq : Nat
  timer : Nat
  event : Event
  due : Instant
  deriving DecidableEq, Repr

namespace Registration

def key (r : Registration) : String := r.event.key

def fire (r : Registration) : Fire := ⟨r.key, r.seq⟩

/-- The order of deadlines, and of keys where deadlines are equal. -/
def precedes (a b : Registration) : Bool :=
  a.due < b.due || (a.due.millis == b.due.millis && a.key ≤ b.key)

def sort (rs : List Registration) : List Registration :=
  rs.mergeSort precedes

end Registration

structure Registry where
  timers : Timeline Fire
  live : List Registration := []
  issued : Nat := 0
  deriving DecidableEq, Repr

namespace Registry

def find? (r : Registry) (key : String) : Option Registration :=
  r.live.find? (·.key == key)

def contains (r : Registry) (key : String) : Bool :=
  (r.find? key).isSome

def size (r : Registry) : Nat :=
  r.live.length

def listing (r : Registry) : List Registration :=
  Registration.sort r.live

def events (r : Registry) : List Event :=
  r.listing.map (·.event)

/-- Takes a registration off the list and leaves its timer alone. -/
def remove (r : Registry) (gone : Registration) : Registry :=
  { r with live := r.live.filter (· != gone) }

def drop (r : Registry) (gone : Registration) : Registry :=
  { r.remove gone with timers := r.timers.cancel gone.timer }

def dropAll (r : Registry) (gone : List Registration) : Registry :=
  gone.foldl drop r

/-- Cancels what waits under a key and says whether there was something. -/
def cancel (r : Registry) (key : String) : Bool × Registry :=
  match r.find? key with
  | some old => (true, r.drop old)
  | none => (false, r)

def cancelAll (r : Registry) : List Registration × Registry :=
  (r.listing, r.dropAll r.listing)

/-- Lets an event wait for `due`, in place of any other with its key. -/
def register (r : Registry) (event : Event) (due : Instant) : Registration × Registry :=
  let r := (r.cancel event.key).2
  let seq := r.issued + 1
  let (timer, timers) := r.timers.schedule due ⟨event.key, seq⟩
  let new : Registration := ⟨seq, timer, event, due⟩
  (new, { timers, live := r.live ++ [new], issued := seq })

/-- Claims the registration that a timer reports. There is none if it was cancelled, replaced or
claimed before. -/
def takeFired (r : Registry) (fire : Fire) : Option Registration × Registry :=
  match r.live.find? (·.fire == fire) with
  | some fired => (some fired, r.remove fired)
  | none => (none, r)

def takeDue (r : Registry) (now : Instant) : List Registration × Registry :=
  let due := Registration.sort (r.live.filter (·.due ≤ now))
  (due, r.dropAll due)

def withTimers (r : Registry) (timers : Timeline Fire) : Registry :=
  { r with timers }

end Registry

end Muezzin
