import Mathlib.Tactic.ByContra
import Muezzin.Daemon.Run
import Muezzin.Proofs.LocalTimes
import Muezzin.Proofs.Refusals
import Muezzin.Proofs.ScheduleKeys

/-!
# How a run of the daemon ends

A refused environment ends a run at once, with a code that nothing else ends it with. An accepted
one always gets its engine, and it gets its clock unless the shift is too long. From there on every
step keeps a loop that can read its clock, whatever occurs and whatever the files hold, so the run
ends well when it is stopped.
-/

namespace Muezzin

/-- What plays on a date plays on it or in the last quarter of an hour before. -/
theorem DailySchedule.localMillis_of_mem_candidates {times : PrayerTimes}
    {settings : PrayerSettings} {flags : FeatureFlags} {now : Instant} {p : Prayer} {ev : Event}
    (hev : ev ∈ candidates times settings flags now p) :
    86400000 * now.date.dayNumber - 900000 ≤ (ev.fireAt now.zone).localMillis ∧
      (ev.fireAt now.zone).localMillis < 86400000 * (now.date.dayNumber + 1) := by
  have hazan (time : TimeOfDay) : 86400000 * now.date.dayNumber ≤
      ((Event.azan p now.date time).fireAt now.zone).localMillis ∧
        ((Event.azan p now.date time).fireAt now.zone).localMillis <
          86400000 * (now.date.dayNumber + 1) := by
    have hbound := time.minutes_lt
    show _ ≤ (time.on now.date now.zone).localMillis ∧ (time.on now.date now.zone).localMillis < _
    rw [TimeOfDay.localMillis_on]
    omega
  rcases candidates_cases times settings flags now p with hnone | ⟨-, time, halone | ⟨-, hboth⟩⟩
  · rw [hnone] at hev
    cases hev
  · rw [halone, List.mem_singleton] at hev
    subst hev
    have hwithin := hazan time
    exact ⟨by omega, hwithin.2⟩
  · rw [hboth, List.mem_cons, List.mem_singleton] at hev
    have hwithin := hazan time
    rcases hev with rfl | rfl
    · exact ⟨by omega, hwithin.2⟩
    · have hbefore : (announcementBefore p ((Event.azan p now.date time).fireAt now.zone)).fireAt
          now.zone = (time.on now.date now.zone).addMinutes (-announcementLead) :=
        TimeOfDay.on_ofInstant_addMinutes time now.date now.zone (-announcementLead)
      have hlead : ((time.on now.date now.zone).addMinutes (-announcementLead)).localMillis =
          ((Event.azan p now.date time).fireAt now.zone).localMillis - 900000 := by
        show (time.on now.date now.zone).millis + 60000 * (-15) + 1000 * now.zone.east =
          (time.on now.date now.zone).millis + 1000 * now.zone.east - 900000
        omega
      rw [hbefore, hlead]
      omega

namespace HostClock

variable {clock : HostClock} {now : Instant}

/-- The local date is neither the first of the calendar nor one of the last two. -/
def WellWithin (clock : HostClock) (now : Instant) : Prop :=
  Date.first.dayNumber < (clock.reading now).date.dayNumber ∧
    (clock.reading now).date.dayNumber + 1 < Date.last.dayNumber

instance (clock : HostClock) (now : Instant) : Decidable (clock.WellWithin now) :=
  inferInstanceAs (Decidable (_ ∧ _))

/-- The date of UTC is at most a day off, since no zone is further than fourteen hours. -/
theorem WellWithin.inCalendar (h : clock.WellWithin now) : (clock.reading now).InCalendar := by
  have hzone := clock.zone_le
  obtain ⟨hfirst, hlast⟩ := h
  have hle (a b : Date) : a ≤ b ↔ a.dayNumber ≤ b.dayNumber := Iff.rfl
  simp only [maxEast] at hzone
  simp only [Instant.InCalendar, hle, reading, Instant.addMillis, Instant.date,
    Instant.localMillis, millisPerDay, Zone.utc] at hfirst hlast ⊢
  omega

/-- An announcement comes a quarter of an hour before today at the earliest, and the rollover comes
tomorrow. -/
theorem WellWithin.fireAt_inCalendar (h : clock.WellWithin now) {times : PrayerTimes}
    {settings : PrayerSettings} {flags : FeatureFlags} {rolloverTime : TimeOfDay} {ev : Event}
    (hev : ev ∈ (DailySchedule.build times settings flags (clock.reading now) rolloverTime).events ∨
      ev ∈ (DailySchedule.build times settings flags (clock.reading now) rolloverTime).skipped) :
    (ev.fireAt clock.zone).InCalendar := by
  have hzone := clock.zone_le
  obtain ⟨hfirst, hlast⟩ := h
  simp only [maxEast] at hzone
  obtain ⟨tomorrow, hnext⟩ : ∃ tomorrow, (clock.reading now).date.next? = some tomorrow :=
    ⟨_, Date.next?_eq_some_iff.2 ⟨Int.lt_trans (Int.lt_succ _) hlast, rfl⟩⟩
  have htomorrow := (Date.next?_eq_some_iff.1 hnext).2
  obtain ⟨hlow, hhigh⟩ : 86400000 * (clock.reading now).date.dayNumber - 900000 ≤
      (ev.fireAt clock.zone).localMillis ∧ (ev.fireAt clock.zone).localMillis <
        86400000 * ((clock.reading now).date.dayNumber + 2) := by
    simp only [DailySchedule.build, List.mem_append, List.mem_filter, List.mem_flatMap,
      List.mem_singleton] at hev
    rcases hev with (⟨⟨p, -, hcandidate⟩, -⟩ | rfl) | ⟨⟨p, -, hcandidate⟩, -⟩
    · obtain ⟨hlow, hhigh⟩ := DailySchedule.localMillis_of_mem_candidates hcandidate
      exact ⟨hlow, Int.lt_trans hhigh (by omega)⟩
    · have hbound := rolloverTime.minutes_lt
      have hrollover (d : Date) : ((Event.rollover d rolloverTime).fireAt clock.zone).localMillis =
          86400000 * d.dayNumber + 60000 * rolloverTime.minutes :=
        TimeOfDay.localMillis_on rolloverTime d clock.zone
      rw [DailySchedule.rolloverDate_of_next hnext, hrollover]
      omega
    · obtain ⟨hlow, hhigh⟩ := DailySchedule.localMillis_of_mem_candidates hcandidate
      exact ⟨hlow, Int.lt_trans hhigh (by omega)⟩
  have hlocal : (ev.fireAt clock.zone).localMillis =
      (ev.fireAt clock.zone).millis + 1000 * clock.zone.east := rfl
  have hdate : (ev.fireAt clock.zone).date.dayNumber =
      (ev.fireAt clock.zone).localMillis / 86400000 := rfl
  rw [Instant.inCalendar_iff, hdate]
  omega

theorem WellWithin.isSome_read? (h : clock.WellWithin now) : (clock.read? now).isSome := by
  simp [read?, h.inCalendar]

theorem ofConfig_of_fits {config : EngineConfig} {zone : Zone} (hzone : config.zone = .ok zone)
    (hfits : config.clockOffsetSecs.toInt.natAbs ≤ maxShiftSecs) :
    ∃ clock, ofConfig config = .ok clock := by
  unfold ofConfig
  split
  · simp_all
  · simp [hfits]

theorem ofConfig_of_long {config : EngineConfig} {zone : Zone} (hzone : config.zone = .ok zone)
    (hlong : ¬config.clockOffsetSecs.toInt.natAbs ≤ maxShiftSecs) :
    ofConfig config = .error (.shiftTooLong config.clockOffsetSecs.toInt) := by
  unfold ofConfig
  split
  · simp_all
  · simp [hlong]

theorem exists_ofConfig_iff {config : EngineConfig} {zone : Zone} (hzone : config.zone = .ok zone) :
    (∃ clock, ofConfig config = .ok clock) ↔
      config.clockOffsetSecs.toInt.natAbs ≤ maxShiftSecs := by
  refine ⟨fun ⟨clock, hclock⟩ => ?_, ofConfig_of_fits hzone⟩
  by_contra hlong
  rw [ofConfig_of_long hzone hlong] at hclock
  cases hclock

end HostClock

namespace Daemon

variable {d : Daemon} {c : DaemonConfig} {clock : HostClock} {env : Environment} {host : Host}
  {now : Instant} {occurrences : List (Occurrence × Host)}

/-- The loop is there, and its clock can be read. -/
structure Running (clock : HostClock) (d : Daemon) : Prop where
  keeps_clock : d.clock = clock
  loops : d.loop.isSome
  reads : (clock.read? d.now).isSome

theorem Running.advance (h : d.Running clock) (host : Host) (hreads : (clock.read? now).isSome) :
    (d.advance host now).1.Running clock := by
  obtain ⟨reading, hreading⟩ := Option.isSome_iff_exists.1 hreads
  obtain ⟨loop, hloop⟩ := Option.isSome_iff_exists.1 h.loops
  have hclock : d.clock.read? now = some reading := by rw [h.keeps_clock, hreading]
  simp only [Daemon.advance, hloop, hclock]
  exact ⟨h.keeps_clock, rfl, hreads⟩

theorem Running.receive (h : d.Running clock) (host : Host) (s : Signal) :
    (d.receive host s).1.Running clock := by
  obtain ⟨loop, hloop⟩ := Option.isSome_iff_exists.1 h.loops
  have hclock : (d.clock.read? d.now).isSome := by rw [h.keeps_clock]; exact h.reads
  simp only [Daemon.receive, hloop, hclock, if_true]
  split <;> exact ⟨h.keeps_clock, rfl, h.reads⟩

/-- Nothing that occurs breaks the loop off, as long as the clock can be read. -/
theorem Running.meet (h : d.Running clock) (host : Host) {o : Occurrence}
    (hreads : ∀ now, o = .tick now → (clock.read? now).isSome) :
    (d.meet host o).1.Running clock := by
  cases o with
  | tick now => exact h.advance host (hreads now rfl)
  | signal s => exact h.receive host s

theorem Running.exit (h : d.Running clock) : d.exit = .clean := by
  simp [Daemon.exit, h.loops]

/-- Whatever occurs and whatever the host holds then, the run ends well. -/
theorem Running.serve (h : d.Running clock) (host : Host)
    (hreads : ∀ now host, (.tick now, host) ∈ occurrences → (clock.read? now).isSome) :
    (d.serve host occurrences).2 = .clean := by
  induction occurrences generalizing d host with
  | nil => exact (h.receive host .terminate).exit
  | cons first rest ih =>
    obtain ⟨o, host'⟩ := first
    have hnext : (d.meet host' o).1.Running clock :=
      h.meet host' fun now ho => hreads now host' (by simp [ho])
    simp only [Daemon.serve]
    split
    · exact hnext.exit
    · exact ih hnext host' fun now host hmem => hreads now host (List.mem_cons_of_mem _ hmem)

theorem exit_serve_ne (d : Daemon) (host : Host) (occurrences : List (Occurrence × Host)) :
    (d.serve host occurrences).2 ≠ .badConfiguration := by
  have hexit (d : Daemon) : d.exit ≠ .badConfiguration := by
    unfold exit
    split <;> simp
  induction occurrences generalizing d host with
  | nil => exact hexit _
  | cons first rest ih =>
    simp only [serve]
    split
    · exact hexit _
    · exact ih _ _

/-- Whoever got past the checks does not end with the code for those who did not. -/
theorem exit_runOn_ne (c : DaemonConfig) (host : Host) (now : Instant)
    (occurrences : List (Occurrence × Host)) :
    (runOn c host now occurrences).2 ≠ .badConfiguration := by
  unfold runOn
  split
  · next fault _ => cases fault <;> simp [endAtStart]
  · exact exit_serve_ne _ _ _

theorem exists_start (hvalid : c.scheduler.validate = .ok ())
    (hclock : HostClock.ofConfig c.scheduler.engine = .ok clock)
    (hreads : (clock.read? now).isSome) :
    ∃ d actions, start c host now = .ok (d, actions) ∧ d.Running clock := by
  obtain ⟨reading, hreading⟩ := Option.isSome_iff_exists.1 hreads
  simp only [start, hclock, hreading, Engine.new, hvalid, bind, Except.bind]
  exact ⟨_, _, rfl, rfl, rfl, hreads⟩

theorem run_of_accepted (hread : DaemonConfig.ofEnvironment env = .ok c)
    (hvalid : c.validate host = .ok ()) :
    (run env host now occurrences).exit = (runOn c host now occurrences).2 := by
  simp only [run, hread, hvalid]

theorem run_of_refused (hplain : ¬env.Overflows) (h : env.Refused host) :
    (run env host now occurrences).exit = .badConfiguration ∧
      (run env host now occurrences).log = [] := by
  unfold run
  split
  · exact ⟨rfl, rfl⟩
  · next c hread =>
    simp only
    split
    · exact ⟨rfl, rfl⟩
    · next hvalid => exact absurd h (DaemonConfig.not_refused_of_valid hplain hread hvalid)

theorem exit_of_long_shift (hvalid : c.scheduler.validate = .ok ())
    (hlong : ¬c.clockOffsetSecs.toInt.natAbs ≤ maxShiftSecs) :
    (runOn c host now occurrences).2 = .brokenOff := by
  obtain ⟨zone, hzone⟩ := SchedulerConfig.exists_zone hvalid
  have hclock : HostClock.ofConfig c.scheduler.engine =
      .error (.shiftTooLong c.clockOffsetSecs.toInt) :=
    HostClock.ofConfig_of_long hzone hlong
  simp only [runOn, start, hclock, bind, Except.bind, endAtStart]

/-- The exit code tells a bad configuration from everything else. A run is refused exactly if there
is a reason, and then it writes no log. Otherwise the engine is always to be had, and the run ends
well however often it is hung up and whatever the files hold, under two conditions that no check
asks for: the shift fits, or else the start is broken off, and what the clock shows stays well
within the calendar. The offset whose absolute value overflows is left out, since builds differ in
what they make of it. -/
theorem exit_of_environment (env : Environment) (host : Host) (now : Instant)
    (occurrences : List (Occurrence × Host)) : ¬env.Overflows →
    ((run env host now occurrences).exit = .badConfiguration ↔ env.Refused host) ∧
    (env.Refused host → (run env host now occurrences).log = []) ∧
    (¬env.Refused host → ∃ c, DaemonConfig.ofEnvironment env = .ok c ∧
      (∀ reading, ∃ engine, Engine.new c.scheduler reading = .ok engine) ∧
      ((∃ clock, HostClock.ofConfig c.scheduler.engine = .ok clock) ↔
        c.clockOffsetSecs.toInt.natAbs ≤ maxShiftSecs) ∧
      (¬c.clockOffsetSecs.toInt.natAbs ≤ maxShiftSecs →
        (run env host now occurrences).exit = .brokenOff) ∧
      ∀ clock, HostClock.ofConfig c.scheduler.engine = .ok clock → clock.WellWithin now →
        (∀ now host, (.tick now, host) ∈ occurrences → clock.WellWithin now) →
        (run env host now occurrences).exit = .clean) := by
  intro hplain
  refine ⟨⟨fun hexit => ?_, fun h => (run_of_refused hplain h).1⟩,
    fun h => (run_of_refused hplain h).2, fun h => ?_⟩
  · by_contra h
    obtain ⟨c, hread, hvalid⟩ := DaemonConfig.exists_valid h
    rw [run_of_accepted hread hvalid] at hexit
    exact exit_runOn_ne _ _ _ _ hexit
  · obtain ⟨c, hread, hvalid⟩ := DaemonConfig.exists_valid h
    have hscheduler := DaemonConfig.validate_scheduler hvalid
    obtain ⟨zone, hzone⟩ := SchedulerConfig.exists_zone hscheduler
    refine ⟨c, hread, fun reading => ?_, HostClock.exists_ofConfig_iff hzone, fun hlong => ?_,
      fun clock hclock hnow hticks => ?_⟩
    · simp [Engine.new, hscheduler, bind, Except.bind]
    · rw [run_of_accepted hread hvalid]
      exact exit_of_long_shift hscheduler hlong
    · obtain ⟨d, actions, hstart, hrunning⟩ := exists_start hscheduler hclock hnow.isSome_read?
      rw [run_of_accepted hread hvalid, runOn, hstart]
      exact hrunning.serve host fun now host hmem => (hticks now host hmem).isSome_read?

/-- An environment for a rehearsal three hours east of UTC, with a clock that is `shift` seconds
ahead. -/
def rehearsal (shift : String) : Environment where
  get? name :=
    [("IQAMAH_TIMES_FILE", "times.json"), ("IQAMAH_SETTINGS_FILE", "settings.json"),
     ("IQAMAH_UTC_OFFSET_MINUTES", " 180"), ("IQAMAH_CLOCK_OFFSET_SECS", shift),
     ("IQAMAH_LOG_LEVEL", "Warn")].lookup name

def plainHost (contents : Except PathFault ByteArray) : Host where
  read _ := contents
  kind? _ := none
  launch _ _ := .error .notFound

def rehearsalConfig (shift : Int64) : DaemonConfig where
  timesFile := some "times.json"
  settingsFile := some "settings.json"
  utcOffsetMinutes := 180
  clockOffsetSecs := shift
  logLevel := "Warn"

theorem rehearsal_not_overflows (shift : String) : ¬(rehearsal shift).Overflows := by
  rintro ⟨value, hgives, hread⟩
  obtain rfl : " 180" = value := Option.some.inj hgives.1
  have hvalue : Text.readInt32 (Text.trim " 180".toList) = .ok 180 := by rfl
  rw [hvalue] at hread
  cases hread

theorem exit_of_environment_rehearsal :
    let missing := plainHost (.error .notFound)
    let corrupt := plainHost (.ok ⟨#[0xff]⟩)
    ¬(rehearsal "3600").Overflows ∧ ¬(rehearsal "3600").Refused missing ∧
      (run (rehearsal "3600") missing ⟨1792368000000, .utc⟩
        [(.signal .hangup, corrupt), (.tick ⟨1792454400000, .utc⟩, corrupt),
          (.signal .interrupt, missing)]).exit = .clean := by
  intro missing corrupt
  have hread : DaemonConfig.ofEnvironment (rehearsal "3600") = .ok (rehearsalConfig 3600) := rfl
  have hoverflow := rehearsal_not_overflows "3600"
  have haccepted : ¬(rehearsal "3600").Refused missing :=
    DaemonConfig.not_refused_of_valid hoverflow hread rfl
  refine ⟨hoverflow, haccepted, ?_⟩
  obtain ⟨c, hc, -, -, -, hclean⟩ :=
    (exit_of_environment (rehearsal "3600") missing ⟨1792368000000, .utc⟩
      [(.signal .hangup, corrupt), (.tick ⟨1792454400000, .utc⟩, corrupt),
        (.signal .interrupt, missing)] hoverflow).2.2 haccepted
  obtain rfl : rehearsalConfig 3600 = c := Except.ok.inj (hread.symm.trans hc)
  refine hclean ⟨⟨10800⟩, 3600, by decide, by decide⟩ rfl (by decide) fun now host hmem => ?_
  obtain rfl : now = ⟨1792454400000, .utc⟩ := by simp at hmem; exact hmem.1
  decide

/-- A shift of the largest number of 64 bits is read and passes every check, and then it breaks the
start off: the run ends neither well nor with the code of a bad configuration. -/
theorem largest_shift_breaks_off :
    let host := plainHost (.error .notFound)
    ¬(rehearsal "9223372036854775807").Refused host ∧
      DaemonConfig.ofEnvironment (rehearsal "9223372036854775807") =
        .ok (rehearsalConfig 9223372036854775807) ∧
      HostClock.ofConfig (rehearsalConfig 9223372036854775807).scheduler.engine =
        .error (.shiftTooLong 9223372036854775807) ∧
      (run (rehearsal "9223372036854775807") host ⟨1792368000000, .utc⟩
        [(.signal .terminate, host)]).exit = .brokenOff := by
  intro host
  have hread : DaemonConfig.ofEnvironment (rehearsal "9223372036854775807") =
      .ok (rehearsalConfig 9223372036854775807) := rfl
  have hplain := rehearsal_not_overflows "9223372036854775807"
  exact ⟨DaemonConfig.not_refused_of_valid hplain hread rfl, hread, rfl, rfl⟩

end Daemon

end Muezzin
