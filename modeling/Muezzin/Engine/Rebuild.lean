import Muezzin.Engine.Basic

/-!
# Rebuilding the schedule

A rebuild first claims every event whose timer has fired or whose deadline has come, and plays them
in the order of their times, so nothing that is due gets lost. Then it cancels everything else,
loads the inputs of the local date, and registers the events of the new schedule. If an input is
missing, nothing waits afterwards.
-/

namespace Muezzin.Engine

/-- Claims what the timers have reported, in the order of the reports. Reports that match nothing
are dropped. -/
def claimFires : List Fire → Registry → List Registration × Registry
  | [], registry => ([], registry)
  | fire :: fires, registry =>
    let (claimed, registry) := registry.takeFired fire
    let (rest, registry) := claimFires fires registry
    (claimed.toList ++ rest, registry)

/-- The order of the events' times in a zone. -/
def sortByTime (zone : Zone) (rs : List Registration) : List Registration :=
  rs.mergeSort fun a b => a.event.fireAt zone ≤ b.event.fireAt zone

/-- Claims everything that is due: what the timers have reported and what they have yet to. -/
def claimDue (e : Engine) : List Registration × Engine :=
  let (reported, registry) := claimFires e.fires e.registry
  let (overdue, registry) := registry.takeDue e.clock
  (sortByTime e.clock.zone (reported ++ overdue), { e with registry, fires := [] })

/-- Plays an event that a rebuild has claimed; a rollover is superseded by the rebuild. -/
def settleDue (inputs : Inputs) (r : Registration) (e : Engine) : Outcome :=
  if r.event.kind = .rollover then ⟨e, [.superseded r]⟩ else e.notify inputs r

def settleAll (inputs : Inputs) : List Registration → Engine → Outcome
  | [], e => ⟨e, []⟩
  | r :: rs, e => (settleDue inputs r e).andThen (settleAll inputs rs)

def deliverDue (e : Engine) (inputs : Inputs) : Outcome :=
  let (due, e) := e.claimDue
  settleAll inputs due e

def clear (e : Engine) : Nat × Outcome :=
  let (gone, registry) := e.registry.cancelAll
  (gone.length, ⟨{ e with registry }, [.cancelled gone]⟩)

def arm : List Event → Engine → Outcome
  | [], e => ⟨e, []⟩
  | event :: events, e =>
    let (r, registry) := e.registry.register event (event.fireAt e.clock.zone)
    (⟨{ e with registry }, [.armed r]⟩ : Outcome).andThen (arm events)

/-- Registers the schedule of the local date after `cancelled` registrations were cancelled. -/
def armSchedule (e : Engine) (day : DayInputs) (cancelled : Nat) : Outcome :=
  let schedule := DailySchedule.build day.times day.settings day.flags e.clock e.rolloverTime
  let untimed := schedule.untimed.map fun p =>
    Action.untimed p (PrayerSettings.toggles day.settings p).azanAtIqamah
  ((⟨e, untimed ++ schedule.skipped.map .skipped⟩ : Outcome).andThen
    (arm schedule.events)).andThen fun e =>
      ⟨e, [.rebuilt e.clock.date e.registry.size schedule.skipped.length cancelled]⟩

def build (e : Engine) (inputs : Inputs) (cancelled : Nat) : Outcome :=
  let today := e.clock.date
  let loaded := Action.loading today :: (inputs.complaints today).map .misread
  (⟨e, loaded⟩ : Outcome).andThen fun e =>
    match inputs.load today with
    | .ok day => e.armSchedule day cancelled
    | .error reason => ⟨e, [.rebuildFailed reason]⟩

/-- Replaces the schedule. Afterwards exactly the new one waits. -/
def rebuild (e : Engine) (inputs : Inputs) : Outcome :=
  (e.deliverDue inputs).andThen fun e =>
    let (cancelled, cleared) := e.clear
    cleared.andThen fun e => e.build inputs cancelled

end Muezzin.Engine
