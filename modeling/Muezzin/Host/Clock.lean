import Muezzin.Config

/-!
# The clock of the host

The daemon reads the host's clock in its own zone and, for rehearsals, shifted. A shift is held in
milliseconds of 64 bits, and a reading has to lie in the calendar. No check of the configuration
asks for either: a longer shift breaks off whoever builds the clock, and a reading outside of the
calendar whoever takes it.
-/

namespace Muezzin

inductive ClockFault where
  | refused (e : Error)
  | shiftTooLong (seconds : Int)
  | outOfCalendar
  deriving DecidableEq, Repr

def maxShiftSecs : Nat := 9223372036854775

/-- The largest distance of a configured zone from UTC, in seconds. -/
def maxEast : Nat := 50400

theorem EngineConfig.natAbs_east_le {config : EngineConfig} {zone : Zone}
    (h : config.zone = .ok zone) : zone.east.natAbs ≤ maxEast := by
  rcases EngineConfig.zone_eq_ok_iff.1 h with ⟨hrange, rfl⟩ | ⟨-, rfl⟩
  · simp only [Error.maxUtcOffsetMinutes] at hrange
    simp only [Zone.ofMinutes, maxEast]
    omega
  · decide

structure HostClock where
  zone : Zone
  shiftSecs : Int
  zone_le : zone.east.natAbs ≤ maxEast
  shift_le : shiftSecs.natAbs ≤ maxShiftSecs
  deriving DecidableEq

namespace HostClock

/-- The clock of a configuration. The zone is checked first. -/
def ofConfig (config : EngineConfig) : Except ClockFault HostClock :=
  match hzone : config.zone with
  | .error e => .error (.refused e)
  | .ok zone =>
    let shiftSecs := config.clockOffsetSecs.toInt
    if hshift_le : shiftSecs.natAbs ≤ maxShiftSecs then
      .ok { zone, shiftSecs, zone_le := EngineConfig.natAbs_east_le hzone, shift_le := hshift_le }
    else .error (.shiftTooLong shiftSecs)

def reading (clock : HostClock) (now : Instant) : Instant :=
  { now with zone := clock.zone }.addMillis (1000 * clock.shiftSecs)

def read? (clock : HostClock) (now : Instant) : Option Instant :=
  let reading := clock.reading now
  if reading.InCalendar then some reading else none

end HostClock

end Muezzin
