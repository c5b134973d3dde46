import Muezzin.Engine.Drive
import Muezzin.Engine.Report

/-!
# A preview of two days

A small almanac gives the times, each a minute later every day, and an engine is driven through two
days at once. The preview lists what is scheduled and then what would be played.
-/

namespace Muezzin.Preview

def zone : Zone := Zone.ofMinutes 180

/-- The date is 19 October 2026. -/
def today : Date := ⟨Civil.dayNumber ⟨2026, 10, 19⟩⟩

/-- Four in the morning. -/
def clock : Instant := (TimeOfDay.wrap 240).on today zone

def baseTimes : PrayerTable TimeOfDay where
  fajr := TimeOfDay.new? 5 12
  sunrise := TimeOfDay.new? 6 40
  zuhr := TimeOfDay.new? 12 5
  asr := TimeOfDay.new? 15 18
  maghrib := TimeOfDay.new? 17 49
  isha := TimeOfDay.new? 19 10

def offsets : IqamahOffsets where
  fajr := some 25
  zuhr := some 15
  asr := some 15
  maghrib := some 7
  isha := some 15

def almanac (date : Date) : Option PrayerTimes :=
  if date < today then none
  else
    let drift := date.dayNumber - today.dayNumber
    some (.ofStarts (baseTimes.map fun _ t => t.addMinutes drift) offsets)

def settings : PrayerSettings :=
  ((PrayerSettings.uniform .allEnabled).insert .fajr
    { Toggles.allEnabled with azanAtIqamah := true }).insert .asr
    { Toggles.allEnabled with announcement := false }

def inputs : Inputs where
  times := fun date => .ok (almanac date)
  settings := .ok (some settings)
  flags := .ok ⟨true, true⟩

def playedLine (d : Registration × String × Instant) : String :=
  "  " ++ d.2.2.date.weekday ++ " " ++ d.2.2.renderClock ++ "  ♪ " ++ d.2.1

def played? : Action → Option (Registration × String × Instant)
  | .handedOff r file now => some (r, file, now)
  | _ => none

def linesOf (engine : Engine) : List String :=
  let built := (engine.rebuild inputs).engine
  let stop := clock.addMillis (2 * millisPerDay)
  let driven := built.driveUntil inputs stop
  let cancelled := driven.engine.clear.1
  ["1. Creating engine...", "2. Building today's schedule..."] ++
    built.registry.events.map (fun e => "  " ++ e.render) ++
    ["", "3. Simulating two days..."] ++
    (driven.actions.filterMap played?).map playedLine ++
    ["", s!"4. Stopping: {cancelled} timer(s) cancelled"]

def lines : Except Error (List String) := do
  let engine ← Engine.new {} clock
  .ok (["=== Embedded iqamah-core Example ===", ""] ++ linesOf engine)

end Muezzin.Preview
