import Muezzin.SortedMap

/-!
# Repetitions within a minute

Each key remembers when its action last ran. An action that comes again less than a minute after
that, or before it on a clock that was set back, is refused, and a refusal does not prolong the
wait.

The times are of any type with a difference. The guard counts in 64 bits (`Debounce Int64`), so the
difference of two times far apart wraps; a program that is built with checks for overflow breaks off
there instead. An engine asks with the readings of its clock (`Debounce Int`): in the calendar their
differences are far from 64 bits, and both guards answer the same.
-/

namespace Muezzin

/-- When each action last ran, in milliseconds. -/
structure Debounce (τ : Type) where
  lastRuns : SortedMap String τ := .empty
  deriving DecidableEq, Repr, Inhabited

namespace Debounce

variable {τ : Type}

def windowMillis [OfNat τ 60000] : τ := 60000

def lastRun? (d : Debounce τ) (key : String) : Option τ :=
  d.lastRuns.get? key

def size (d : Debounce τ) : Nat :=
  d.lastRuns.toList.length

variable [Sub τ] [LE τ] [DecidableLE τ] [OfNat τ 60000]

/-- An action may run if it never did or if its last run is at least a minute old. -/
def allows (d : Debounce τ) (key : String) (now : τ) : Bool :=
  match d.lastRun? key with
  | none => true
  | some last => windowMillis ≤ now - last

/-- Asks for a run at `now`, which is remembered if it is allowed. -/
def ask (d : Debounce τ) (key : String) (now : τ) : Bool × Debounce τ :=
  if d.allows key now then (true, ⟨d.lastRuns.insert key now⟩) else (false, d)

end Debounce

end Muezzin
