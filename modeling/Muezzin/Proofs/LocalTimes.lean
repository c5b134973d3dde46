import Muezzin.Proofs.CivilDates
import Muezzin.TimeOfDay

/-!
# Local time

An instant shows one date and one time of day, and it is in the minute that these two begin. So a
date and a time are told by the instant that is made from them, and every instant at the start of a
local minute is told by what it shows, whatever the zone: a shift by whole minutes may change the
date, the month or the year and nothing is lost. Local times are in the order of the calendar, and
the same time on the next date is 1440 minutes later.
-/

namespace Muezzin

theorem Instant.dayNumber_date (i : Instant) :
    i.date.dayNumber = (i.millis + 1000 * i.zone.east) / 86400000 := rfl

theorem Instant.date_le {a b : Instant} (honward : a ≤ b) (hzone : a.zone = b.zone) :
    a.date ≤ b.date := by
  have horder : a.millis ≤ b.millis := honward
  show a.date.dayNumber ≤ b.date.dayNumber
  rw [dayNumber_date, dayNumber_date, hzone]
  omega

theorem Instant.inCalendar_iff (t : Instant) : t.InCalendar ↔
    (Date.first.dayNumber ≤ t.date.dayNumber ∧ t.date.dayNumber ≤ Date.last.dayNumber) ∧
      Date.first.dayNumber ≤ t.millis / 86400000 ∧ t.millis / 86400000 ≤ Date.last.dayNumber := by
  have hutc : { t with zone := .utc }.date.dayNumber = t.millis / 86400000 := by
    rw [dayNumber_date]
    simp [Zone.utc]
  rw [← hutc]
  rfl

/-- The calendar ends about 2⁵³ milliseconds from 1970 on either side. -/
theorem Instant.InCalendar.natAbs_millis_lt {t : Instant} (hcalendar : t.InCalendar) :
    t.millis.natAbs < 2 ^ 62 := by
  obtain ⟨-, hfirst, hlast⟩ := t.inCalendar_iff.1 hcalendar
  have hstart : Date.first.dayNumber = -96465292 := by decide
  have hend : Date.last.dayNumber = 95026236 := by decide
  omega

namespace TimeOfDay

variable {t u : TimeOfDay} {d e : Date} {zone : Zone} {i : Instant}

theorem millis_on (t : TimeOfDay) (d : Date) (zone : Zone) :
    (t.on d zone).millis = 86400000 * d.dayNumber + 60000 * t.minutes - 1000 * zone.east := rfl

theorem localMillis_on (t : TimeOfDay) (d : Date) (zone : Zone) :
    (t.on d zone).localMillis = 86400000 * d.dayNumber + 60000 * t.minutes := by
  have hmillis := millis_on t d zone
  show (t.on d zone).millis + 1000 * zone.east = _
  omega

theorem minutes_ofInstant (i : Instant) :
    ((ofInstant i).minutes : Int) = (i.millis + 1000 * i.zone.east) % 86400000 / 60000 := by
  have hwrapped : ((ofInstant i).minutes : Int) =
      (i.millis + 1000 * i.zone.east) % 86400000 / 60000 % 1440 := minutes_wrap _
  omega

/-- A date and a time are shown throughout the minute that they begin, and only then. -/
theorem shows_iff : i.date = d ∧ ofInstant i = t ↔
    t.on d i.zone ≤ i ∧ i < (t.on d i.zone).addMinutes 1 := by
  have hnumber := i.dayNumber_date
  have hminutes := minutes_ofInstant i
  have hbound := t.minutes_lt
  have hbegun : t.on d i.zone ≤ i ↔
      86400000 * d.dayNumber + 60000 * t.minutes ≤ i.millis + 1000 * i.zone.east := by
    show (t.on d i.zone).millis ≤ i.millis ↔ _
    rw [millis_on]
    omega
  have hends : i < (t.on d i.zone).addMinutes 1 ↔
      i.millis + 1000 * i.zone.east < 86400000 * d.dayNumber + 60000 * t.minutes + 60000 := by
    show i.millis < (t.on d i.zone).millis + 60000 * 1 ↔ _
    rw [millis_on]
    omega
  rw [hbegun, hends]
  constructor
  · rintro ⟨rfl, rfl⟩
    omega
  · intro hwithin
    have hsame : i.date.dayNumber = d.dayNumber := by omega
    exact ⟨congrArg Date.mk hsame, eq_of_minutes_eq (by omega)⟩

theorem shows_on (t : TimeOfDay) (d : Date) (zone : Zone) :
    (t.on d zone).date = d ∧ ofInstant (t.on d zone) = t := by
  refine shows_iff.2 ⟨Int.le_refl _, ?_⟩
  show (t.on d zone).millis < (t.on d zone).millis + 60000 * 1
  omega

theorem date_on (t : TimeOfDay) (d : Date) (zone : Zone) : (t.on d zone).date = d :=
  (shows_on t d zone).1

theorem millisOfDay_on (t : TimeOfDay) (d : Date) (zone : Zone) :
    (t.on d zone).millisOfDay = millisPerMinute * t.minutes := by
  have hbound := t.minutes_lt
  show ((t.on d zone).millis + 1000 * zone.east) % 86400000 = 60000 * t.minutes
  rw [millis_on]
  omega

/-- An instant tells the date and the time of day that it was made from. -/
theorem on_inj (hsame : t.on d zone = u.on e zone) : t = u ∧ d = e := by
  obtain ⟨hdate, htime⟩ := shows_on t d zone
  obtain ⟨hdate', htime'⟩ := shows_on u e zone
  rw [hsame] at hdate htime
  exact ⟨htime.symm.trans htime', hdate.symm.trans hdate'⟩

theorem on_lt_on_iff :
    t.on d zone < u.on e zone ↔ d.civil.Before e.civil ∨ d = e ∧ t.minutes < u.minutes := by
  have hbound := t.minutes_lt
  have hbound' := u.minutes_lt
  have hequal : d = e ↔ d.dayNumber = e.dayNumber :=
    ⟨congrArg Date.dayNumber, congrArg Date.mk⟩
  rw [Date.civil_before_iff, hequal]
  show (t.on d zone).millis < (u.on e zone).millis ↔ d.dayNumber < e.dayNumber ∨ _
  rw [millis_on, millis_on]
  omega

theorem on_of_next? (t : TimeOfDay) (zone : Zone) (hsuccessor : d.next? = some e) :
    t.on e zone = (t.on d zone).addMinutes 1440 := by
  have hnumber := (Date.next?_eq_some_iff.1 hsuccessor).2
  have hlater : (t.on e zone).millis = (t.on d zone).millis + 60000 * 1440 := by
    rw [millis_on, millis_on, hnumber]
    omega
  exact congrArg (Instant.mk · zone) hlater

/-- Where a local minute begins, date and time of day tell the instant. -/
theorem on_ofInstant (hwhole : i.localMillis % millisPerMinute = 0) :
    (ofInstant i).on i.date i.zone = i := by
  have hnumber := i.dayNumber_date
  have hminutes := minutes_ofInstant i
  have hmillis : ((ofInstant i).on i.date i.zone).millis = i.millis := by
    unfold Instant.localMillis millisPerMinute at hwhole
    rw [millis_on]
    omega
  cases i
  exact congrArg (Instant.mk · _) hmillis

theorem on_ofInstant_addMinutes (t : TimeOfDay) (d : Date) (zone : Zone) (n : Int) :
    let shifted := (t.on d zone).addMinutes n
    (ofInstant shifted).on shifted.date zone = shifted := by
  intro shifted
  have hwhole : shifted.localMillis % millisPerMinute = 0 := by
    show ((t.on d zone).millis + 60000 * n + 1000 * zone.east) % 60000 = 0
    rw [millis_on]
    omega
  exact on_ofInstant hwhole

/-- A date and a time of day, in whatever zone, are shown by the instant that is made from them and
by every other in the minute that it begins, so every instant is in the minute that begins with what
it shows. Dates are told by their year, month and day. The instants are in the order of the calendar
and, on one date, of the times; the next date, in the same month or not, is exactly 1440 minutes
later, and after a shift by any number of minutes what is shown still tells the instant. -/
theorem shown_without_drift (t : TimeOfDay) (d : Date) (zone : Zone) :
    let i := t.on d zone
    (i.zone = zone ∧ i.date = d ∧ ofInstant i = t) ∧
    (∀ x : Instant, x.zone = zone →
      (x.date = d ∧ ofInstant x = t ↔ i ≤ x ∧ x < i.addMinutes 1)) ∧
    (∀ c, Date.ofCivil? c = some d ↔ d.civil = c ∧ Date.first ≤ d ∧ d ≤ Date.last) ∧
    (∀ (u : TimeOfDay) e, i < u.on e zone ↔
      d.civil.Before e.civil ∨ d = e ∧ t.minutes < u.minutes) ∧
    (d < Date.last → ∃ e, d.next? = some e ∧ e.civil = d.civil.next ∧
      t.on e zone = i.addMinutes 1440) ∧
    ∀ n, let shifted := i.addMinutes n
      (ofInstant shifted).on shifted.date zone = shifted := by
  intro i
  refine ⟨⟨rfl, shows_on t d zone⟩, ?_, fun c => Date.ofCivil?_eq_some_iff,
    fun u e => on_lt_on_iff, fun hbefore => ?_, on_ofInstant_addMinutes t d zone⟩
  · rintro x rfl
    exact shows_iff
  · have hsuccessor : d.next? = some ⟨d.dayNumber + 1⟩ := Date.next?_eq_some_iff.2 ⟨hbefore, rfl⟩
    exact ⟨_, hsuccessor, Date.civil_of_next? hsuccessor, on_of_next? t zone hsuccessor⟩

/-- The last day of the year −1, four and a half hours and a second west of Greenwich. -/
theorem shown_without_drift_year_zero :
    let d : Date := ⟨Civil.dayNumber ⟨-1, 12, 31⟩⟩
    let t : TimeOfDay := ⟨7, by decide⟩
    let zone : Zone := ⟨-16201⟩
    let i := t.on d zone
    let quarter := i.addMinutes (-15)
    let late := i.addMillis 59999
    (d < Date.last ∧ ∃ e, d.next? = some e ∧ e.civil = ⟨0, 1, 1⟩ ∧
      t.on e zone = i.addMinutes 1440) ∧
    (late.zone = zone ∧ late.date = d ∧ ofInstant late = t) ∧
    quarter.date.civil = ⟨-1, 12, 30⟩ ∧ (ofInstant quarter).minutes = 1432 ∧
    (ofInstant quarter).on quarter.date zone = quarter := by
  intro d t zone i quarter late
  obtain ⟨-, hwithin, -, -, hnext, hshift⟩ := shown_without_drift t d zone
  have hbefore : d < Date.last := by decide
  obtain ⟨e, hsuccessor, hcivil, hlater⟩ := hnext hbefore
  have hminute : i ≤ late ∧ late < i.addMinutes 1 := by decide
  exact ⟨⟨hbefore, e, hsuccessor, hcivil.trans (by decide), hlater⟩,
    ⟨rfl, (hwithin late rfl).2 hminute⟩, by decide, by decide, hshift (-15)⟩

end TimeOfDay

end Muezzin
