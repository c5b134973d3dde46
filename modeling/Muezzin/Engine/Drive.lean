import Muezzin.Engine.Messages

/-!
# Driving an engine from deadline to deadline

Without a loop of its own, an engine is driven by moving its clock to the next deadline and handling
what fires, again and again, up to some instant. Every round fires a timer, and a date has at most
eleven of them, so the number of rounds is known beforehand.
-/

namespace Muezzin.Engine

/-- One round: moves to the next deadline, unless it is after `stop`, and handles what fires. -/
def round? (e : Engine) (inputs : Inputs) (stop : Instant) : Option Outcome :=
  match e.timers.nextDue? with
  | none => none
  | some due =>
    if stop < due then none
    else
      let moved := (e.advanceTo due).2
      some (moved.processPending inputs).2

/-- An azan and an announcement for each of five prayers, and the rollover. -/
def maxEventsPerDay : Nat := 11

/-- The rounds that are enough to get to `stop`. -/
def roundLimit (e : Engine) (stop : Instant) : Nat :=
  let days := (stop.date.dayNumber - e.clock.date.dayNumber + 1).toNat
  e.timers.pending.length + maxEventsPerDay * days

def driveFor (inputs : Inputs) (stop : Instant) : Nat → Engine → Outcome
  | 0, e => ⟨e, []⟩
  | rounds + 1, e =>
    match e.round? inputs stop with
    | none => ⟨e, []⟩
    | some o => o.andThen (driveFor inputs stop rounds)

/-- Rounds until no deadline is left at or before `stop`. -/
def driveUntil (e : Engine) (inputs : Inputs) (stop : Instant) : Outcome :=
  driveFor inputs stop (e.roundLimit stop) e

end Muezzin.Engine
