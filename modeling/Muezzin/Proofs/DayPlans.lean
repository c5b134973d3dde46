import Muezzin.Proofs.LocalTimes
import Muezzin.Proofs.Rounds

/-!
# What is planned for a date

A date lasts from its midnight to the next, and whatever is scheduled on it plays over a minute
before that. Planned for a date are its azans and announcements after a cut-off, in the order of
time. On the first day the cut-off is the start, and on all others it is the rollover, so what is
not after the rollover time is planned for none of them.
-/

namespace Muezzin

def Date.after (d : Date) (days : Nat) : Date :=
  ⟨d.dayNumber + days⟩

@[simp] theorem Date.dayNumber_after (d : Date) (days : Nat) :
    (d.after days).dayNumber = d.dayNumber + days := rfl

theorem Date.after_after (d : Date) (m n : Nat) : (d.after m).after n = d.after (m + n) := by
  simp only [after, Nat.cast_add, Int.add_assoc]

namespace TimeOfDay

@[simp] theorem minutes_midnight : midnight.minutes = 0 := rfl

theorem midnight_on_le (t : TimeOfDay) (d : Date) (zone : Zone) :
    midnight.on d zone ≤ t.on d zone := by
  show (midnight.on d zone).millis ≤ (t.on d zone).millis
  rw [millis_on, millis_on, minutes_midnight]
  omega

theorem midnight_on_mono {d : Date} {zone : Zone} {m n : Nat} (hearlier : m ≤ n) :
    midnight.on (d.after m) zone ≤ midnight.on (d.after n) zone := by
  show (midnight.on (d.after m) zone).millis ≤ (midnight.on (d.after n) zone).millis
  simp only [millis_on, Date.dayNumber_after]
  omega

end TimeOfDay

namespace Instant

theorem midnight_le (i : Instant) : TimeOfDay.midnight.on i.date i.zone ≤ i := by
  show (TimeOfDay.midnight.on i.date i.zone).millis ≤ i.millis
  rw [TimeOfDay.millis_on, TimeOfDay.minutes_midnight, dayNumber_date]
  omega

theorem lt_midnight (i : Instant) : i < TimeOfDay.midnight.on (i.date.after 1) i.zone := by
  show i.millis < (TimeOfDay.midnight.on (i.date.after 1) i.zone).millis
  rw [TimeOfDay.millis_on, TimeOfDay.minutes_midnight, Date.dayNumber_after, dayNumber_date]
  omega

/-- An instant shows a date from its midnight to the next. -/
theorem date_eq {i : Instant} {d : Date} (hbegun : TimeOfDay.midnight.on d i.zone ≤ i)
    (hends : i < TimeOfDay.midnight.on (d.after 1) i.zone) : i.date = d := by
  have hlow : (TimeOfDay.midnight.on d i.zone).millis ≤ i.millis := hbegun
  have hhigh : i.millis < (TimeOfDay.midnight.on (d.after 1) i.zone).millis := hends
  rw [TimeOfDay.millis_on, TimeOfDay.minutes_midnight] at hlow hhigh
  rw [Date.dayNumber_after] at hhigh
  have hnumber := i.dayNumber_date
  have hsame : i.date.dayNumber = d.dayNumber := by omega
  exact congrArg Date.mk hsame

def endAfter (start : Instant) (days : Nat) : Instant :=
  (TimeOfDay.midnight.on (start.date.after (days + 1)) start.zone).addMillis (-1)

theorem le_endAfter_iff {i start : Instant} {days : Nat} :
    i ≤ start.endAfter days ↔
      i < TimeOfDay.midnight.on (start.date.after (days + 1)) start.zone :=
  Int.le_sub_one_iff

end Instant

theorem TimeOfDay.on_lt_midnight (t : TimeOfDay) (d : Date) (zone : Zone) :
    t.on d zone < midnight.on (d.after 1) zone := by
  have hlater := (t.on d zone).lt_midnight
  rwa [date_on] at hlater

namespace Instant

theorem date_endAfter (start : Instant) (days : Nat) :
    (start.endAfter days).date = start.date.after days := by
  apply date_eq
  · have hlater : TimeOfDay.midnight.on (start.date.after days) start.zone <
        TimeOfDay.midnight.on (start.date.after (days + 1)) start.zone := by
      rw [← Date.after_after]
      exact TimeOfDay.on_lt_midnight _ _ _
    exact le_endAfter_iff.2 hlater
  · rw [Date.after_after]
    exact le_endAfter_iff.1 (le_refl _)

theorem endAfter_succ (start : Instant) (days : Nat) (t : TimeOfDay) :
    start.endAfter (days + 1) = (t.on (start.date.after 1) start.zone).endAfter days := by
  rw [endAfter, endAfter, TimeOfDay.date_on, Date.after_after, Nat.add_comm 1]
  rfl

end Instant

theorem Debounce.lt_of_minute_le {a b : Int} (hminute : a + windowMillis ≤ b) : a < b := by
  unfold windowMillis at hminute
  omega

namespace DailySchedule

theorem rolloverDate_eq {d : Date} (hinCalendar : d.dayNumber < Date.last.dayNumber) :
    rolloverDate d = d.after 1 :=
  rolloverDate_of_next (Date.next?_eq_some_iff.2 ⟨hinCalendar, rfl⟩)

theorem fireAt_announcementBefore_le (p : Prayer) (azanAt : Instant) :
    (announcementBefore p azanAt).fireAt azanAt.zone ≤ azanAt := by
  let i := azanAt.addMinutes (-announcementLead)
  have hearlier : i ≤ azanAt := by
    show azanAt.millis + 60000 * (-15) ≤ azanAt.millis
    omega
  exact Instant.le_trans (TimeOfDay.shows_iff.1 ⟨rfl, rfl⟩).1 hearlier

/-- What plays on a date is over a minute before the next. -/
theorem fireAt_le_of_mem_candidates {times : PrayerTimes} {settings : PrayerSettings}
    {flags : FeatureFlags} {now : Instant} {p : Prayer} {ev : Event}
    (h : ev ∈ candidates times settings flags now p) :
    (ev.fireAt now.zone).millis + Debounce.windowMillis ≤
      (TimeOfDay.midnight.on (now.date.after 1) now.zone).millis := by
  have hazan (time : TimeOfDay) : ((Event.azan p now.date time).fireAt now.zone).millis +
      Debounce.windowMillis ≤ (TimeOfDay.midnight.on (now.date.after 1) now.zone).millis := by
    have hbound := time.minutes_lt
    show (time.on now.date now.zone).millis + 60000 ≤ _
    rw [TimeOfDay.millis_on, TimeOfDay.millis_on, TimeOfDay.minutes_midnight, Date.dayNumber_after]
    omega
  rcases candidates_cases times settings flags now p with hnone | ⟨-, time, halone | ⟨-, hboth⟩⟩
  · rw [hnone] at h
    cases h
  · rw [halone, List.mem_singleton] at h
    rw [h]
    exact hazan time
  · rw [hboth, List.mem_cons, List.mem_singleton] at h
    rcases h with rfl | rfl
    · exact hazan time
    · have hbefore : (announcementBefore p ((Event.azan p now.date time).fireAt now.zone)).fireAt
          now.zone ≤ (Event.azan p now.date time).fireAt now.zone :=
        fireAt_announcementBefore_le p ((Event.azan p now.date time).fireAt now.zone)
      exact Int.le_trans (Int.add_le_add_right hbefore _) (hazan time)

/-- What plays is after the cut-off and over a minute before the next date. -/
theorem fireAt_bounds {times : PrayerTimes} {settings : PrayerSettings} {flags : FeatureFlags}
    {now : Instant} {rolloverTime : TimeOfDay} {ev : Event}
    (hscheduled : ev ∈ (build times settings flags now rolloverTime).events)
    (hplays : ev.kind ≠ .rollover) :
    now < ev.fireAt now.zone ∧ (ev.fireAt now.zone).millis + Debounce.windowMillis ≤
      (TimeOfDay.midnight.on (now.date.after 1) now.zone).millis := by
  rcases List.mem_append.1 hscheduled with hkept | hlast
  · obtain ⟨hsome, hfuture⟩ := List.mem_filter.1 hkept
    obtain ⟨p, -, hcandidate⟩ := List.mem_flatMap.1 hsome
    exact ⟨of_decide_eq_true hfuture, fireAt_le_of_mem_candidates hcandidate⟩
  · rw [List.mem_singleton.1 hlast] at hplays
    exact absurd rfl hplays

/-- Whatever plays on the date of the cut-off, in the order of time: the event, its file, and when
it is handed off. -/
def plan (s : DailySchedule) (audio : AudioConfig) (zone : Zone) :
    List (Event × Option String × Instant) :=
  (Instant.sortBy (Event.fireAt · zone) s.prayerEvents).map fun ev =>
    (ev, audio.fileFor ev, ev.fireAt zone)

theorem of_mem_plan {times : PrayerTimes} {settings : PrayerSettings} {flags : FeatureFlags}
    {cut : Instant} {rolloverTime : TimeOfDay} {audio : AudioConfig}
    {h : Event × Option String × Instant}
    (hplanned : h ∈ (build times settings flags cut rolloverTime).plan audio cut.zone) :
    cut < h.2.2 ∧ h.2.2.date = cut.date := by
  obtain ⟨ev, hlisted, rfl⟩ := List.mem_map.1 hplanned
  obtain ⟨hscheduled, hplays⟩ := List.mem_filter.1 (Instant.mem_sortBy.1 hlisted)
  obtain ⟨hfuture, hearly⟩ := fireAt_bounds hscheduled (bne_iff_ne.1 hplays)
  have hbegun : TimeOfDay.midnight.on cut.date cut.zone ≤ ev.fireAt cut.zone :=
    Int.le_trans cut.midnight_le (Int.le_of_lt hfuture)
  exact ⟨hfuture, Instant.date_eq hbegun (Debounce.lt_of_minute_le hearly)⟩

end DailySchedule

/-- When the schedule of a date begins to play: on the first one at the start, on all others with
the rollover. -/
def Instant.cutOff (start : Instant) (rolloverTime : TimeOfDay) : Nat → Instant
  | 0 => start
  | day + 1 => rolloverTime.on (start.date.after (day + 1)) start.zone

theorem Instant.cutOff_succ (start : Instant) (rolloverTime : TimeOfDay) (day : Nat) :
    start.cutOff rolloverTime (day + 1) =
      (rolloverTime.on (start.date.after 1) start.zone).cutOff rolloverTime day := by
  cases day with
  | zero => rfl
  | succ day =>
    rw [cutOff, cutOff, TimeOfDay.date_on, Date.after_after, Nat.add_comm 1]
    rfl

theorem Instant.flatMap_cutOff {α : Type} (plan : Instant → List α) (start : Instant)
    (rolloverTime : TimeOfDay) (days : Nat) :
    (List.range (days + 1)).flatMap (fun day => plan (start.cutOff rolloverTime day)) =
      plan start ++ (List.range days).flatMap fun day =>
        plan ((rolloverTime.on (start.date.after 1) start.zone).cutOff rolloverTime day) := by
  rw [List.range_succ_eq_map, List.flatMap_cons, List.flatMap_map]
  simp only [Nat.succ_eq_add_one, cutOff_succ]
  rfl

/-- Only what is after the rollover time is played on the days after the first. -/
theorem DailySchedule.rolloverTime_lt_of_mem_plan {times : Date → PrayerTimes}
    {settings : PrayerSettings} {flags : FeatureFlags} {audio : AudioConfig} {start : Instant}
    {rolloverTime : TimeOfDay} {day : Nat} {h : Event × Option String × Instant}
    (hplanned : h ∈ (build (times (start.cutOff rolloverTime day).date) settings flags
      (start.cutOff rolloverTime day) rolloverTime).plan audio (start.cutOff rolloverTime day).zone)
    (hanother : h.2.2.date ≠ start.date) : rolloverTime.on h.2.2.date start.zone < h.2.2 := by
  obtain ⟨hfuture, htoday⟩ := of_mem_plan hplanned
  cases day with
  | zero => exact absurd htoday hanother
  | succ day =>
    rw [htoday, Instant.cutOff, TimeOfDay.date_on]
    exact hfuture

end Muezzin
