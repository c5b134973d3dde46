import Muezzin.PrayerTimes
import Muezzin.Settings

/-!
# The schedule of one day

From the times of a day, the switches and the current instant follows the list of events to wait
for: an azan for every prayer whose azan is on, an announcement a quarter of an hour before it if
that is on too, and last the rollover, at which the schedule of the next day takes over. Events that
are not strictly in the future are set aside as skipped.

The instants of the events have no bounds here. They are those of the program as long as they are in
the calendar (`Instant.InCalendar`), and they are if today is neither its first date nor one of its
last two.
-/

namespace Muezzin

inductive EventKind where
  | azan
  | announcement
  /-- Replace the schedule by that of the new day. -/
  | rollover
  deriving DecidableEq, Repr, Inhabited

def EventKind.name : EventKind → String
  | .azan => "azan"
  | .announcement => "announcement"
  | .rollover => "next-day rollover"

/-- Something to do at a time of day on a date. The key tells apart the events that wait at the
same time, and repetitions of an action are recognised by it. -/
structure Event where
  key : String
  kind : EventKind
  prayer : Option Prayer
  date : Date
  time : TimeOfDay
  deriving DecidableEq, Repr, Inhabited

namespace Event

def azanKey (p : Prayer) : String := "azan_" ++ p.name

def announcementKey (p : Prayer) : String := "announcement_" ++ p.name

def rolloverKey : String := "next_day_update"

def azan (p : Prayer) (date : Date) (time : TimeOfDay) : Event :=
  ⟨azanKey p, .azan, some p, date, time⟩

def announcement (p : Prayer) (date : Date) (time : TimeOfDay) : Event :=
  ⟨announcementKey p, .announcement, some p, date, time⟩

def rollover (date : Date) (time : TimeOfDay) : Event :=
  ⟨rolloverKey, .rollover, none, date, time⟩

def fireAt (e : Event) (zone : Zone) : Instant :=
  e.time.on e.date zone

def render (e : Event) : String :=
  e.key ++ " at " ++ e.date.render ++ " " ++ e.time.render

end Event

def announcementLead : Int := 15

structure DailySchedule where
  /-- Events strictly after the instant of building, the rollover last. -/
  events : List Event
  skipped : List Event
  /-- Prayers with the azan on and no time for it. -/
  untimed : List Prayer
  deriving DecidableEq, Repr

namespace DailySchedule

def azanTime (times : PrayerTimes) (settings : PrayerSettings) (p : Prayer) : Option TimeOfDay :=
  if (PrayerSettings.toggles settings p).azanAtIqamah then times.iqamahs.get? p
  else times.starts.get? p

/-- The announcement of an azan, on the local date and at the local time of its own instant. -/
def announcementBefore (p : Prayer) (azanAt : Instant) : Event :=
  let instant := azanAt.addMinutes (-announcementLead)
  Event.announcement p instant.date (TimeOfDay.ofInstant instant)

def candidates (times : PrayerTimes) (settings : PrayerSettings) (flags : FeatureFlags)
    (now : Instant) (p : Prayer) : List Event :=
  let enablement := Enablement.resolve flags (PrayerSettings.toggles settings p)
  if !enablement.azan then []
  else
    match azanTime times settings p with
    | none => []
    | some time =>
      let azan := Event.azan p now.date time
      if enablement.announcement then
        [azan, announcementBefore p (azan.fireAt now.zone)]
      else [azan]

def lacksTime (times : PrayerTimes) (settings : PrayerSettings) (flags : FeatureFlags)
    (p : Prayer) : Bool :=
  (Enablement.resolve flags (PrayerSettings.toggles settings p)).azan &&
    (azanTime times settings p).isNone

/-- The last date of the calendar is its own successor here, so there always is a rollover. -/
def rolloverDate (today : Date) : Date :=
  today.next?.getD today

def build (times : PrayerTimes) (settings : PrayerSettings) (flags : FeatureFlags)
    (now : Instant) (rolloverTime : TimeOfDay) : DailySchedule :=
  let all := Prayer.congregational.flatMap (candidates times settings flags now)
  let isFuture := fun e : Event => decide (now < e.fireAt now.zone)
  { events := all.filter isFuture ++ [Event.rollover (rolloverDate now.date) rolloverTime]
    skipped := all.filter fun e => !isFuture e
    untimed := Prayer.congregational.filter (lacksTime times settings flags) }

def prayerEvents (s : DailySchedule) : List Event :=
  s.events.filter fun e => e.kind != .rollover

end DailySchedule

end Muezzin
