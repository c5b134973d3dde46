import Muezzin.Proofs.DayPlans
import Muezzin.Proofs.Fates
import Muezzin.Proofs.Warrants

/-!
# Day after day

With times for every date and switches that never change, an engine that is driven from deadline to
deadline plays what is planned for one date after the other. All that plays on a date is over a
minute before the next one begins, so the rollover finds an engine for which nothing else waits, no
azan comes too soon after its namesake of the day before, and rollovers are a day apart.
-/

namespace Muezzin

/-- The inputs have times for every date, and the switches are the same whenever they are asked
for. -/
structure Inputs.Reliable (inputs : Inputs) (times : Date → PrayerTimes) (settings : PrayerSettings)
    (flags : FeatureFlags) : Prop where
  times_eq : ∀ date, inputs.times date = .ok (some (times date))
  settings_eq : inputs.settings = .ok (some settings)
  flags_eq : inputs.flags = .ok flags
  recheck_eq : ∀ p, inputs.recheck p = ⟨.ok (some settings), .ok flags⟩

namespace Action

def heard? : Action → Option (Event × Option String × Instant)
  | handedOff r file now => some (r.event, some file, now)
  | _ => none

/-- What a smooth day consists of: schedules that are built when nothing waits any more, hand-offs,
and rollovers that run. -/
def isSmooth : Action → Bool
  | loading _ => true
  | misread _ => true
  | untimed _ _ => true
  | skipped _ => true
  | armed _ => true
  | rebuilt _ _ _ _ => true
  | handedOff _ _ _ => true
  | rolledOver _ _ => true
  | cancelled rs => rs.isEmpty
  | _ => false

end Action

def Outcome.heard (o : Outcome) : List (Event × Option String × Instant) :=
  o.actions.filterMap Action.heard?

theorem Outcome.heard_andThen (o : Outcome) (next : Engine → Outcome) :
    (o.andThen next).heard = o.heard ++ (next o.engine).heard :=
  List.filterMap_append

/-- What is heard is what goes to the notifier. -/
theorem Outcome.files_heard (o : Outcome) :
    o.heard.filterMap (·.2.1) = (o.actions.filterMap Action.delivery?).map (·.2) := by
  rw [heard, List.filterMap_filterMap, List.map_filterMap]
  congr
  funext a
  cases a <;> rfl

namespace Inputs.Reliable

variable {inputs : Inputs} {times : Date → PrayerTimes} {settings : PrayerSettings}
  {flags : FeatureFlags} (hreliable : inputs.Reliable times settings flags)
include hreliable

theorem load (date : Date) : inputs.load date = .ok ⟨times date, settings, flags⟩ :=
  Inputs.load_eq_ok_iff.2 ⟨hreliable.times_eq date, hreliable.settings_eq, hreliable.flags_eq⟩

/-- What was on when the schedule was built is on when it plays. -/
theorem withdrawal?_eq_none {p : Prayer}
    (hon : (Enablement.resolve flags (PrayerSettings.toggles settings p)).announcement) :
    inputs.withdrawal? p = none := by
  rw [withdrawal?, hreliable.recheck_eq]
  exact if_pos hon

end Inputs.Reliable

/-- All earlier runs were over a minute before the day begins, and those of the rollover over a
minute before the next one. -/
structure Debounce.Rested (d : Debounce Int) (day rollover : Instant) : Prop where
  plays : ∀ key last, key ≠ Event.rolloverKey → d.lastRun? key = some last →
    last + windowMillis ≤ day.millis
  rolls : ∀ last, d.lastRun? Event.rolloverKey = some last → last + windowMillis ≤ rollover.millis

namespace Engine

variable {inputs : Inputs} {times : Date → PrayerTimes} {settings : PrayerSettings}
  {flags : FeatureFlags} {e : Engine} {cut stop : Instant} {gs : List Registration}

/-- What is played from the cut-off to the end of the date. -/
def planFrom (e : Engine) (times : Date → PrayerTimes) (settings : PrayerSettings)
    (flags : FeatureFlags) (cut : Instant) : List (Event × Option String × Instant) :=
  (DailySchedule.build (times cut.date) settings flags cut e.rolloverTime).plan e.audio cut.zone

/-- The schedule from the cut-off on waits, and all of it may run. -/
structure Dawn (e : Engine) (times : Date → PrayerTimes) (settings : PrayerSettings)
    (flags : FeatureFlags) (cut : Instant) (gs : List Registration) : Prop where
  calm : e.Calm gs
  clock : e.clock = cut
  entries : Registration.AreOf gs
    (DailySchedule.build (times cut.date) settings flags cut e.rolloverTime).events cut.zone
  rested : e.debounce.Rested (TimeOfDay.midnight.on cut.date cut.zone)
    (e.rolloverTime.on (cut.date.after 1) cut.zone)

/-- Only the rollover to the next date waits, and it may run, as may all of that date. -/
structure Dusk (e : Engine) (date : Date) (r : Registration) : Prop where
  calm : e.Calm [r]
  event : r.event = Event.rollover (date.after 1) e.rolloverTime
  due : r.due = e.rolloverTime.on (date.after 1) e.clock.zone
  ahead : e.clock ≤ r.due
  rested : e.debounce.Rested (TimeOfDay.midnight.on (date.after 1) e.clock.zone) r.due

theorem Calm.claimDue_eq_nil (hcalm : e.Calm []) : e.claimDue.1 = [] := by
  apply List.eq_nil_iff_forall_not_mem.2
  intro r hclaimed
  have hlive := (mem_claimDue hcalm.books.distinct hclaimed).1
  rw [hcalm.live] at hlive
  cases hlive

theorem Calm.smooth_rebuild (hcalm : e.Calm []) (hreliable : inputs.Reliable times settings flags) :
    (e.rebuild inputs).heard = [] ∧ ∀ a ∈ (e.rebuild inputs).actions, a.isSmooth := by
  have hclaims := hcalm.claimDue_eq_nil
  have hdelivered : (e.deliverDue inputs).actions = [] := by
    show (settleAll inputs e.claimDue.1 e.claimDue.2).actions = []
    rw [hclaims]
    rfl
  have hlisting : e.claimDue.2.registry.listing = [] := by
    have hall := perm_claimDue hcalm.books.distinct
    rw [hclaims, hcalm.live, List.nil_append] at hall
    apply List.eq_nil_iff_forall_not_mem.2
    intro r hlisted
    have hlive := hall.mem_iff.1 (Registry.mem_listing.1 hlisted)
    cases hlive
  obtain ⟨later, hactions, hsilent⟩ := actions_rebuild e inputs
  obtain ⟨new, -, houtcome⟩ := rebuild_of_load (hreliable.load e.clock.date)
  constructor
  · rw [Outcome.heard, hactions, hdelivered, List.nil_append]
    apply List.filterMap_eq_nil_iff.2
    intro a ha
    cases a with
    | handedOff => cases hsilent _ ha
    | _ => rfl
  · intro a ha
    rw [houtcome, partings, hdelivered, hlisting] at ha
    simp only [List.nil_append, List.mem_append, Inputs.remarks, DayInputs.remarks, List.mem_map,
      List.mem_cons, List.not_mem_nil, or_false] at ha
    rcases ha with rfl | (rfl | ⟨complaint, -, rfl⟩) |
      (((⟨p, -, rfl⟩ | ⟨ev, -, rfl⟩) | ⟨g, -, rfl⟩) | rfl) <;> rfl

theorem Calm.dawn_rebuild (hcalm : e.Calm []) (hreliable : inputs.Reliable times settings flags)
    (hrested : e.debounce.Rested (TimeOfDay.midnight.on e.clock.date e.clock.zone)
      (e.rolloverTime.on (e.clock.date.after 1) e.clock.zone)) :
    (e.rebuild inputs).engine.Dawn times settings flags e.clock
      (e.rebuild inputs).engine.registry.live := by
  have hafter := (leadsTo_rebuild e inputs []).keep Moment.Step.sound hcalm.sound
  have hentries := (schedules_rebuild (hreliable.load e.clock.date)).entries
  have htime := rolloverTime_rebuild e inputs
  have hmemory (key : String) :
      (e.rebuild inputs).engine.debounce.lastRun? key = e.debounce.lastRun? key :=
    lastRun?_rebuild_of_notMem (by simp [hcalm.claimDue_eq_nil]) inputs
  exact
    { calm :=
        { sound := ⟨hafter.books, hafter.proper, hafter.known⟩
          live := rfl
          pending := pending_rebuild (timersOwned_of_books hcalm.books) inputs
          queues := (queues_rebuild e inputs).trans (congrArg (Prod.mk []) hcalm.commands)
          zones := fun g hg => by
            rw [(hentries.due_eq hg).2, clock_rebuild]
            rfl }
      clock := clock_rebuild e inputs
      entries := htime ▸ hentries
      rested :=
        { plays := fun key last hother hran => hrested.plays key last hother (hmemory key ▸ hran)
          rolls := fun last hran => htime ▸ hrested.rolls last (hmemory _ ▸ hran) } }

namespace Dawn

variable (hdawn : e.Dawn times settings flags cut gs)
include hdawn

theorem zone : e.clock.zone = cut.zone :=
  congrArg Instant.zone hdawn.clock

/-- An azan or an announcement of the day is allowed, and it is after the cut-off and over a minute
before the next day. -/
theorem of_plays {g : Registration} (hg : g ∈ gs) (hplays : g.event.kind ≠ .rollover) :
    (⟨times cut.date, settings, flags⟩ : DayInputs).Allows g.event ∧ cut < g.due ∧
      g.due.millis + Debounce.windowMillis ≤
        (TimeOfDay.midnight.on (cut.date.after 1) cut.zone).millis := by
  obtain ⟨hscheduled, hdue⟩ := hdawn.entries.due_eq hg
  rw [hdue]
  exact ⟨(DailySchedule.allows_of_mem_events hscheduled hplays).1,
    DailySchedule.fireAt_bounds hscheduled hplays⟩

theorem proper {g : Registration} (hg : g ∈ gs) : g.event.Proper :=
  hdawn.calm.books.proper g (hdawn.calm.live ▸ hg)

theorem mayPlay (hreliable : inputs.Reliable times settings flags)
    (hvalid : e.audio.validate = .ok ()) {g : Registration} (hg : g ∈ gs)
    (hplays : g.event.kind ≠ .rollover) : e.MayPlay inputs g := by
  obtain ⟨⟨p, hprayer, -, hon⟩, hfuture, -⟩ := hdawn.of_plays hg hplays
  have hproper := hdawn.proper hg
  refine ⟨hplays, ⟨p, hprayer, fun hannounced => ?_⟩,
    AudioConfig.exists_fileFor hvalid hproper hplays, fun last hran => ?_⟩
  · rw [hannounced] at hon
    exact hreliable.withdrawal?_eq_none hon
  · have hother : g.key ≠ Event.rolloverKey := fun hsame =>
      hplays (hproper.key_eq_rolloverKey_iff.1 hsame)
    have hbefore := hdawn.rested.plays g.key last hother hran
    have hbegun : (TimeOfDay.midnight.on cut.date cut.zone).millis ≤ cut.millis := cut.midnight_le
    have hfuture : cut.millis < g.due.millis := hfuture
    omega

theorem due_rollover (hinCalendar : cut.date.dayNumber < Date.last.dayNumber) {r : Registration}
    (hr : r ∈ gs) (hrolls : r.event.kind = .rollover) :
    r.event = Event.rollover (cut.date.after 1) e.rolloverTime ∧
      r.due = e.rolloverTime.on (cut.date.after 1) cut.zone := by
  obtain ⟨hscheduled, hdue⟩ := hdawn.entries.due_eq hr
  rcases DailySchedule.mem_events_cases _ _ _ _ _ hscheduled with ⟨-, hplays, -⟩ | hevent
  · exact absurd hrolls hplays
  · rw [DailySchedule.rolloverDate_eq hinCalendar] at hevent
    refine ⟨hevent, ?_⟩
    rw [hdue, hevent]
    rfl

/-- One rollover waits, and everything else is before it. -/
theorem exists_rollover (hinCalendar : cut.date.dayNumber < Date.last.dayNumber) :
    ∃ r ∈ gs, r.event.kind = .rollover ∧
      (∀ g ∈ gs, g.due < r.due ↔ g.event.kind ≠ .rollover) ∧
      gs.filter (fun g => ¬ g.due < r.due) = [r] ∧
      gs.filter (·.due < r.due) = gs.filter fun g => g.event.kind != .rollover := by
  have hrollovers := hdawn.entries.filter fun ev => ev.kind = .rollover
  rw [DailySchedule.filter_rollover_events] at hrollovers
  obtain ⟨r, honly, -⟩ := List.map_eq_singleton_iff.1 hrollovers
  have hr : r ∈ gs.filter fun g => g.event.kind = .rollover := honly ▸ List.mem_singleton_self r
  obtain ⟨hwaits, hrolls⟩ := List.mem_filter.1 hr
  have hrolls := of_decide_eq_true hrolls
  have hdue := (hdawn.due_rollover hinCalendar hwaits hrolls).2
  have hbefore (g : Registration) (hg : g ∈ gs) : g.due < r.due ↔ g.event.kind ≠ .rollover := by
    by_cases hplays : g.event.kind = .rollover
    · refine iff_of_false ?_ (by simp [hplays])
      rw [hdue, (hdawn.due_rollover hinCalendar hg hplays).2]
      exact Int.lt_irrefl _
    · refine iff_of_true ?_ hplays
      have hearly := Debounce.lt_of_minute_le (hdawn.of_plays hg hplays).2.2
      rw [hdue]
      exact Int.lt_of_lt_of_le hearly (TimeOfDay.midnight_on_le _ _ _)
  refine ⟨r, hwaits, hrolls, hbefore, ?_, ?_⟩
  · rw [← honly]
    apply List.filter_congr
    intro g hg
    simp [hbefore g hg]
  · apply List.filter_congr
    intro g hg
    simp [hbefore g hg, bne, beq_eq_decide]

/-- The azans and announcements that wait are played as planned. -/
theorem heard_plays (hvalid : e.audio.validate = .ok ()) (f : Engine) :
    (⟨f, (Instant.sortBy Registration.due
      (gs.filter fun g => g.event.kind != .rollover)).map
        (Registration.handOff e.audio)⟩ : Outcome).heard = e.planFrom times settings flags cut := by
  let playing := gs.filter fun g => g.event.kind != .rollover
  let entry := fun x : Event × Instant => (x.1, e.audio.fileFor x.1, x.2)
  have hheard : ∀ g ∈ Instant.sortBy Registration.due playing,
      (g.handOff e.audio).heard? = some (entry (g.event, g.due)) := by
    intro g hg
    obtain ⟨hwaits, hplays⟩ := List.mem_filter.1 (Instant.mem_sortBy.1 hg)
    obtain ⟨file, hvoiced⟩ :=
      AudioConfig.exists_fileFor hvalid (hdawn.proper hwaits) (bne_iff_ne.1 hplays)
    simp [entry, Registration.handOff, Action.heard?, hvoiced]
  have hentries : playing.map (fun g => (g.event, g.due)) =
      (DailySchedule.build (times cut.date) settings flags cut e.rolloverTime).prayerEvents.map
        fun ev => (ev, ev.fireAt cut.zone) :=
    hdawn.entries.filter fun ev => ev.kind != .rollover
  calc
    _ = (Instant.sortBy Registration.due playing).map fun g => entry (g.event, g.due) := by
      rw [Outcome.heard, List.filterMap_map, ← List.filterMap_eq_map]
      exact List.filterMap_congr hheard
    _ = (Instant.sortBy Prod.snd (playing.map fun g => (g.event, g.due))).map entry := by
      rw [← Instant.map_sortBy (fun g : Registration => (g.event, g.due)) Prod.snd, List.map_map]
      rfl
    _ = _ := by
      rw [hentries, ← Instant.map_sortBy (fun ev : Event => (ev, ev.fireAt cut.zone)) Prod.snd,
        List.map_map]
      rfl

/-- Once everything else has played, only the rollover is left. -/
theorem dusk (hinCalendar : cut.date.dayNumber < Date.last.dayNumber) {r : Registration}
    (hr : r ∈ gs) (hrolls : r.event.kind = .rollover) {f : Engine} (hcalm : f.Calm [r])
    (hafter : e.After f (gs.filter fun g => g.event.kind != .rollover)) : f.Dusk cut.date r := by
  obtain ⟨hevent, hdue⟩ := hdawn.due_rollover hinCalendar hr hrolls
  have hplayed {g : Registration} (hg : g ∈ gs.filter fun g => g.event.kind != .rollover) :
      g ∈ gs ∧ g.event.kind ≠ .rollover := by
    rwa [List.mem_filter, bne_iff_ne] at hg
  have hzone : f.clock.zone = cut.zone := hafter.zone.trans hdawn.zone
  have hnext : (TimeOfDay.midnight.on (cut.date.after 1) cut.zone).millis ≤ r.due.millis := by
    rw [hdue]
    exact TimeOfDay.midnight_on_le _ _ _
  have hbegun : (TimeOfDay.midnight.on cut.date cut.zone).millis ≤ cut.millis := cut.midnight_le
  have hends : cut.millis < (TimeOfDay.midnight.on (cut.date.after 1) cut.zone).millis :=
    cut.lt_midnight
  exact
    { calm := hcalm
      event := hafter.rolloverTime ▸ hevent
      due := by
        rw [hzone, hafter.rolloverTime]
        exact hdue
      ahead := by
        show f.clock.millis ≤ r.due.millis
        rcases hafter.clock with hsame | ⟨g, hg, hnow⟩
        · rw [hsame, hdawn.clock]
          omega
        · obtain ⟨hwaits, hplays⟩ := hplayed hg
          have hearly := Debounce.lt_of_minute_le (hdawn.of_plays hwaits hplays).2.2
          rw [hnow]
          omega
      rested :=
        { plays := by
            intro key last hother hran
            rw [hzone]
            rcases hafter.memory key last hran with hold | ⟨g, hg, -, hnew⟩
            · have hbefore := hdawn.rested.plays key last hother hold
              omega
            · obtain ⟨hwaits, hplays⟩ := hplayed hg
              rw [← hnew]
              exact (hdawn.of_plays hwaits hplays).2.2
          rolls := by
            intro last hran
            rcases hafter.memory _ last hran with hold | ⟨g, hg, hkey, -⟩
            · rw [hdue]
              exact hdawn.rested.rolls last hold
            · obtain ⟨hwaits, hplays⟩ := hplayed hg
              exact absurd ((hdawn.proper hwaits).key_eq_rolloverKey_iff.1 hkey) hplays } }

/-- A day is played as planned, and then only the rollover is left. -/
theorem day (stop : Instant) (hreliable : inputs.Reliable times settings flags)
    (hvalid : e.audio.validate = .ok ()) (hinCalendar : cut.date.dayNumber < Date.last.dayNumber)
    (hwithin : ∀ i : Instant, i < TimeOfDay.midnight.on (cut.date.after 1) cut.zone → i ≤ stop) :
    ∃ o rounds r, rounds + 1 ≤ gs.length ∧ e.Drives inputs stop rounds o ∧
      o.engine.Dusk cut.date r ∧
      o.heard = e.planFrom times settings flags cut ∧
      (∀ a ∈ o.actions, a.isSmooth) ∧ o.engine.audio = e.audio ∧
      o.engine.rolloverTime = e.rolloverTime ∧ o.engine.clock.zone = cut.zone := by
  obtain ⟨r, hwaits, hrolls, hbefore, hrest, hearly⟩ := hdawn.exists_rollover hinCalendar
  have hplaying {g : Registration} (hg : g ∈ gs) (hdue : g.due < r.due) :=
    hdawn.of_plays hg ((hbefore g hg).1 hdue)
  have hmay : ∀ g ∈ gs, g.due < r.due → e.MayPlay inputs g := fun g hg hdue =>
    hdawn.mayPlay hreliable hvalid hg ((hbefore g hg).1 hdue)
  have htoday : ∀ g ∈ gs, g.due < r.due → g.due ≤ stop := fun g hg hdue =>
    hwithin g.due (Debounce.lt_of_minute_le (hplaying hg hdue).2.2)
  have hahead : ∀ g ∈ gs, g.due < r.due → e.clock ≤ g.due := by
    intro g hg hdue
    rw [hdawn.clock]
    exact Int.le_of_lt (hplaying hg hdue).2.1
  obtain ⟨f, rounds, hfew, hdrives, hcalm, hafter⟩ :=
    hdawn.calm.drives_plays r.due hmay hahead htoday
  have hwhole : gs.length = (gs.filter (·.due < r.due)).length + 1 := by
    have hparts := List.length_eq_length_filter_add (l := gs) (·.due < r.due)
    simp only [decide_not] at hrest
    rw [hrest] at hparts
    exact hparts
  rw [hrest] at hcalm
  rw [hearly] at hdrives hafter
  refine ⟨_, rounds, r, by omega, hdrives, hdawn.dusk hinCalendar hwaits hrolls hcalm hafter,
    hdawn.heard_plays hvalid f, ?_, hafter.audio, hafter.rolloverTime, hafter.zone.trans hdawn.zone⟩
  intro a ha
  obtain ⟨g, -, rfl⟩ := List.mem_map.1 ha
  rfl

end Dawn

theorem Dusk.night {date : Date} {r : Registration} (hdusk : e.Dusk date r)
    (hreliable : inputs.Reliable times settings flags) (hwithin : r.due ≤ stop) :
    ∃ o gs, e.round? inputs stop = some o ∧ o.engine.Dawn times settings flags r.due gs ∧
      o.heard = [] ∧ (∀ a ∈ o.actions, a.isSmooth) ∧ o.engine.audio = e.audio ∧
      o.engine.rolloverTime = e.rolloverTime := by
  have hrolls : r.event.kind = .rollover := by
    rw [hdusk.event]
    rfl
  have hkey : r.key = Event.rolloverKey := by
    rw [Registration.key, hdusk.event]
    rfl
  obtain ⟨f, hround, hcalm, hclock, haudio, htime, hmemory⟩ :=
    hdusk.calm.round_rollover hrolls hwithin hdusk.ahead (hkey ▸ hdusk.rested.rolls) inputs
  have htoday : r.due.date = date.after 1 := by
    rw [hdusk.due, TimeOfDay.date_on]
  have hzone : r.due.zone = e.clock.zone := by
    rw [hdusk.due]
    rfl
  have hrested : f.debounce.Rested (TimeOfDay.midnight.on f.clock.date f.clock.zone)
      (f.rolloverTime.on (f.clock.date.after 1) f.clock.zone) := by
    rw [hmemory, hkey, hclock, htoday, hzone, htime]
    constructor
    · intro other last hplays hran
      rw [Debounce.lastRun?_stamp_of_ne _ hplays] at hran
      exact hdusk.rested.plays other last hplays hran
    · intro last hran
      rw [Debounce.lastRun?_stamp_self] at hran
      rw [← Option.some.inj hran, hdusk.due]
      simp only [TimeOfDay.millis_on, Date.dayNumber_after, Debounce.windowMillis]
      omega
  have hdawn := hcalm.dawn_rebuild hreliable hrested
  rw [hclock] at hdawn
  obtain ⟨hsilent, hsmooth⟩ := hcalm.smooth_rebuild hreliable
  refine ⟨_, _, hround, hdawn, ?_, ?_, ?_, ?_⟩
  · rw [Outcome.heard_andThen, hsilent]
    rfl
  · intro a ha
    rcases List.mem_cons.1 ha with rfl | ha
    · rfl
    · exact hsmooth a ha
  · show (f.rebuild inputs).engine.audio = _
    rw [audio_rebuild, haudio]
  · show (f.rebuild inputs).engine.rolloverTime = _
    rw [rolloverTime_rebuild, htime]

theorem Dusk.round?_eq_none {date : Date} {r : Registration} (hdusk : e.Dusk date r)
    (hended : stop < TimeOfDay.midnight.on (date.after 1) e.clock.zone) (inputs : Inputs) :
    e.round? inputs stop = none := by
  obtain ⟨g, hwaits, hnext, -⟩ := hdusk.calm.exists_nextDue? (List.cons_ne_nil r [])
  rw [List.mem_singleton.1 hwaits, hdusk.due] at hnext
  rw [round?, hnext]
  exact if_pos (Int.lt_of_lt_of_le hended (TimeOfDay.midnight_on_le _ _ _))

/-- Day after day is played as planned. -/
theorem Dawn.days (hdawn : e.Dawn times settings flags cut gs)
    (hreliable : inputs.Reliable times settings flags) (hvalid : e.audio.validate = .ok ())
    (days : Nat) (hinCalendar : cut.date.dayNumber + days < Date.last.dayNumber) :
    ∃ o rounds, rounds ≤ gs.length + maxEventsPerDay * days ∧
      e.Drives inputs (cut.endAfter days) rounds o ∧
      o.engine.round? inputs (cut.endAfter days) = none ∧
      o.heard = (List.range (days + 1)).flatMap (fun day =>
        e.planFrom times settings flags (cut.cutOff e.rolloverTime day)) ∧
      ∀ a ∈ o.actions, a.isSmooth := by
  induction days generalizing e cut gs with
  | zero =>
    obtain ⟨o, rounds, r, hfew, hdrives, hdusk, hheard, hsmooth, -, -, hzone⟩ :=
      hdawn.day (cut.endAfter 0) hreliable hvalid (by omega)
        fun i hbefore => Instant.le_endAfter_iff.2 hbefore
    refine ⟨o, rounds, by omega, hdrives, hdusk.round?_eq_none ?_ inputs, ?_, hsmooth⟩
    · rw [hzone]
      exact Instant.le_endAfter_iff.1 (Instant.le_refl _)
    · rw [hheard, Nat.zero_add, List.range_one, List.flatMap_singleton]
      rfl
  | succ days ih =>
    -- The first day ends with its rollover alone, whose round begins the first of the other days.
    obtain ⟨o, rounds, r, hfew, hdrives, hdusk, hheard, hsmooth, haudio, htime, hzone⟩ :=
      hdawn.day (cut.endAfter (days + 1)) hreliable hvalid (by omega) fun i hbefore =>
        Instant.le_endAfter_iff.2
          (Int.lt_of_lt_of_le hbefore (TimeOfDay.midnight_on_mono (by omega)))
    have hdue : r.due = e.rolloverTime.on (cut.date.after 1) cut.zone := by
      rw [hdusk.due, htime, hzone]
    have hstop : cut.endAfter (days + 1) = r.due.endAfter days := by
      rw [hdue, Instant.endAfter_succ cut days e.rolloverTime]
    have hwithin : r.due ≤ cut.endAfter (days + 1) := by
      rw [hdue, Instant.le_endAfter_iff]
      have hended := e.rolloverTime.on_lt_midnight (cut.date.after 1) cut.zone
      rw [Date.after_after] at hended
      exact Int.lt_of_lt_of_le hended (TimeOfDay.midnight_on_mono (by omega))
    obtain ⟨p, gs', hround, hdawn', hsilent, hsmooth', haudio', htime'⟩ :=
      hdusk.night hreliable hwithin
    have haudio' := haudio'.trans haudio
    have htime' := htime'.trans htime
    have hnext : r.due.date.dayNumber + days < Date.last.dayNumber := by
      rw [hdue, TimeOfDay.date_on, Date.dayNumber_after]
      omega
    obtain ⟨q, rounds', hfew', hdrives', hdone, hheard', hsmooth''⟩ :=
      ih hdawn' (by rwa [haudio']) hnext
    rw [← hstop] at hdrives' hdone
    have hsmall : gs'.length ≤ maxEventsPerDay := by
      rw [← hdawn'.calm.live]
      exact hdawn'.calm.books.length_live_le
    refine ⟨_, _, ?_, hdrives.trans ((Drives.round hround).trans hdrives'), hdone, ?_, ?_⟩
    · rw [Nat.mul_succ]
      omega
    · have hplans : p.engine.planFrom times settings flags = e.planFrom times settings flags := by
        funext i
        rw [planFrom, planFrom, haudio', htime']
      calc
        _ = o.heard ++ (p.heard ++ q.heard) := by
          simp only [Outcome.heard, List.filterMap_append]
        _ = e.planFrom times settings flags cut ++ (List.range (days + 1)).flatMap fun day =>
              e.planFrom times settings flags (r.due.cutOff e.rolloverTime day) := by
          rw [hheard, hsilent, hheard', List.nil_append, htime', hplans]
        _ = _ := by
          rw [hdue]
          exact (Instant.flatMap_cutOff _ cut e.rolloverTime (days + 1)).symm
    · intro a ha
      rcases List.mem_append.1 ha with ha | ha
      · exact hsmooth a ha
      · exact (List.mem_append.1 ha).elim (hsmooth' a) (hsmooth'' a)

end Engine

namespace Rehearsal

variable {inputs : Inputs} {stop : Instant} {s : Speaker}

/-- Advancing to the next deadline is a round, and the speaker is asked for whatever is handed off
in it. -/
theorem perform_next {r : Rehearsal} {o : Outcome}
    (hround : r.engine.round? r.inputs stop = some o) (hdelivered : r.deliveries = [])
    (houtput : r.output = .speaker s) :
    let r' := (r.perform .next).2
    r'.engine = o.engine ∧ r'.inputs = r.inputs ∧ r'.output = r.output ∧ r'.deliveries = [] ∧
      r'.played = r.played ++ o.heard.filterMap (·.2.1) := by
  rw [Engine.round?] at hround
  cases hnext : r.engine.timers.nextDue? with
  | none =>
    rw [hnext] at hround
    cases hround
  | some due =>
    simp only [hnext, Option.ite_none_left_eq_some, Option.some.injEq] at hround
    obtain ⟨-, rfl⟩ := hround
    rw [perform, next?, hnext]
    refine ⟨rfl, rfl, rfl, rfl, ?_⟩
    let moved := (r.advanceTimers due).2.process.2
    have hasked (d : Delivery) : moved.heard d = [d.file] := by
      have hspeaker : moved.output = .speaker s := houtput
      rw [heard, hspeaker]
    show r.played ++ (r.deliveries ++ _).flatMap moved.heard = _
    rw [funext hasked, hdelivered, List.nil_append, Outcome.files_heard, List.flatMap_map]
    exact congrArg _ (List.map_eq_flatMap).symm

theorem deliveries_rebuild {r : Rehearsal} (hsilent : (r.engine.rebuild r.inputs).heard = [])
    (hdelivered : r.deliveries = []) : r.rebuild.2.deliveries = [] := by
  have hnothing := (r.engine.rebuild r.inputs).files_heard
  rw [hsilent, eq_comm, List.filterMap_nil, List.map_eq_nil_iff] at hnothing
  show r.deliveries ++ _ = []
  rw [hdelivered, hnothing]
  rfl

/-- Advances through so many deadlines, with the deliveries done at each. -/
def through (r : Rehearsal) : Nat → Rehearsal
  | 0 => r
  | rounds + 1 => (r.perform .next).2.through rounds

theorem exists_through (stop : Instant) (limit : Nat) {r : Rehearsal}
    (hdelivered : r.deliveries = []) (houtput : r.output = .speaker s) :
    let o := Engine.driveFor r.inputs stop limit r.engine
    ∃ rounds, (r.through rounds).engine = o.engine ∧ (r.through rounds).deliveries = [] ∧
      (r.through rounds).played = r.played ++ o.heard.filterMap (·.2.1) := by
  have hidle (r : Rehearsal) (hdelivered : r.deliveries = []) :
      ∃ rounds, (r.through rounds).engine = r.engine ∧ (r.through rounds).deliveries = [] ∧
        (r.through rounds).played = r.played ++ [] :=
    ⟨0, rfl, hdelivered, (List.append_nil _).symm⟩
  induction limit generalizing r with
  | zero => exact hidle r hdelivered
  | succ limit ih =>
    cases hround : r.engine.round? r.inputs stop with
    | none =>
      rw [Engine.driveFor, hround]
      exact hidle r hdelivered
    | some o =>
      rw [Engine.driveFor, hround]
      obtain ⟨hengine, hinputs, houtput', hdelivered', hplayed⟩ :=
        perform_next hround hdelivered houtput
      obtain ⟨rounds, hengine', hrest, hplayed'⟩ := ih hdelivered' (houtput'.trans houtput)
      rw [hengine, hinputs] at hengine' hplayed'
      refine ⟨rounds + 1, hengine', hrest, ?_⟩
      show ((r.perform .next).2.through rounds).played = _
      rw [hplayed', hplayed, Outcome.heard_andThen, List.filterMap_append, List.append_assoc]

end Rehearsal

namespace Engine

variable {inputs : Inputs} {times : Date → PrayerTimes} {settings : PrayerSettings}
  {flags : FeatureFlags}

theorem dawn_new {config : SchedulerConfig} {start : Instant} {e : Engine}
    (hcreated : Engine.new config start = .ok e)
    (hreliable : inputs.Reliable times settings flags) :
    (e.rebuild inputs).engine.Dawn times settings flags start
        (e.rebuild inputs).engine.registry.live ∧
      (e.rebuild inputs).heard = [] ∧ ∀ a ∈ (e.rebuild inputs).actions, a.isSmooth := by
  have hsound := sound_new hcreated
  obtain ⟨-, rfl⟩ := new_eq hcreated
  have hcalm := Calm.of_empty hsound rfl rfl
  have hrested (day rollover : Instant) : Debounce.Rested {} day rollover :=
    { plays := fun _ _ _ hran => nomatch hran
      rolls := fun _ hran => nomatch hran }
  exact ⟨hcalm.dawn_rebuild hreliable (hrested _ _), hcalm.smooth_rebuild hreliable⟩

theorem driveUntil_endAfter {config : SchedulerConfig} {start : Instant} {e : Engine}
    (hcreated : Engine.new config start = .ok e)
    (hreliable : inputs.Reliable times settings flags)
    (days : Nat) (hinCalendar : start.date.dayNumber + days < Date.last.dayNumber) :
    let o := (e.rebuild inputs).engine.driveUntil inputs (start.endAfter days)
    o.engine.round? inputs (start.endAfter days) = none ∧
      o.heard = (List.range (days + 1)).flatMap (fun day =>
        e.planFrom times settings flags (start.cutOff e.rolloverTime day)) ∧
      ∀ a ∈ o.actions, a.isSmooth := by
  obtain ⟨hdawn, -, -⟩ := dawn_new hcreated hreliable
  have haudio : (e.rebuild inputs).engine.audio = e.audio := audio_rebuild e inputs
  have htime : (e.rebuild inputs).engine.rolloverTime = e.rolloverTime :=
    rolloverTime_rebuild e inputs
  have hvalid : e.audio.validate = .ok () := by
    obtain ⟨hvalid, rfl⟩ := new_eq hcreated
    exact SchedulerConfig.validate_audio hvalid
  obtain ⟨o, rounds, hfew, hdrives, hdone, hheard, hsmooth⟩ :=
    hdawn.days hreliable (by rwa [haudio]) days hinCalendar
  have henough : rounds ≤ (e.rebuild inputs).engine.roundLimit (start.endAfter days) := by
    have hdates : (start.date.dayNumber + days - start.date.dayNumber + 1).toNat = days + 1 := by
      omega
    rw [roundLimit, hdawn.calm.pending, List.length_map, hdawn.clock, Instant.date_endAfter,
      Date.dayNumber_after, hdates, Nat.mul_succ]
    omega
  have hdriven : (e.rebuild inputs).engine.driveUntil inputs (start.endAfter days) = o :=
    hdrives.driveFor_eq hdone henough
  simp only [planFrom, haudio, htime] at hheard
  rw [hdriven]
  exact ⟨hdone, hheard, hsmooth⟩

/-- A new engine with times for every date and constant switches that is rebuilt and then driven
through the end of a date plays the schedules of the dates up to it, one after the other and each
in the order of time, and nothing else: nothing is refused, withdrawn, cancelled, or left over. The
first schedule is the one from the start on, all others those from the rollover on, so what is not
after the rollover time is not played on them. A speaker that is given its turn at each deadline is
asked for exactly these files. The calendar has to have a date for the last rollover that is
scheduled. -/
theorem plays_day_after_day {config : SchedulerConfig} {start : Instant} {e : Engine}
    (hcreated : Engine.new config start = .ok e)
    (hreliable : inputs.Reliable times settings flags)
    (days : Nat) (hinCalendar : start.date.dayNumber + days < Date.last.dayNumber) :
    let rolloverTime := config.engine.rolloverTime
    let stop := start.endAfter days
    let o := (e.rebuild inputs).andThen (·.driveUntil inputs stop)
    o.heard = (List.range (days + 1)).flatMap (fun day =>
        let cut := start.cutOff rolloverTime day
        (DailySchedule.build (times cut.date) settings flags cut rolloverTime).plan
          config.audio cut.zone) ∧
      (∀ a ∈ o.actions, a.isSmooth) ∧
      o.engine.round? inputs stop = none ∧
      (∀ h ∈ o.heard, h.2.2.date ≠ start.date →
        rolloverTime.on h.2.2.date start.zone < h.2.2) ∧
      ∀ r : Rehearsal, r.engine = e → r.inputs = inputs → r.deliveries = [] →
        ∀ s, r.output = .speaker s → ∃ rounds, (r.rebuild.2.through rounds).engine = o.engine ∧
          (r.rebuild.2.through rounds).played = r.played ++ o.heard.filterMap (·.2.1) := by
  intro rolloverTime stop o
  obtain ⟨-, hsilent, hsmooth⟩ := dawn_new hcreated hreliable
  obtain ⟨hdone, hheard, hsmooth'⟩ := driveUntil_endAfter hcreated hreliable days hinCalendar
  obtain ⟨-, hconfig_eq⟩ := new_eq hcreated
  have hplans : o.heard = (List.range (days + 1)).flatMap fun day =>
      let cut := start.cutOff rolloverTime day
      (DailySchedule.build (times cut.date) settings flags cut rolloverTime).plan
        config.audio cut.zone := by
    rw [Outcome.heard_andThen, hsilent, List.nil_append, hheard, hconfig_eq]
    rfl
  refine ⟨hplans, ?_, hdone, ?_, ?_⟩
  · intro a ha
    exact (List.mem_append.1 ha).elim (hsmooth a) (hsmooth' a)
  · intro h hh hanother
    rw [hplans] at hh
    obtain ⟨day, -, hplanned⟩ := List.mem_flatMap.1 hh
    exact DailySchedule.rolloverTime_lt_of_mem_plan hplanned hanother
  · intro r hisEngine htold hdelivered s houtput
    subst hisEngine htold
    obtain ⟨rounds, hengine, -, hplayed⟩ := Rehearsal.exists_through stop
      ((r.engine.rebuild r.inputs).engine.roundLimit stop)
      (Rehearsal.deliveries_rebuild hsilent hdelivered) (r := r.rebuild.2) houtput
    refine ⟨rounds, hengine, ?_⟩
    rw [Outcome.heard_andThen, hsilent, List.nil_append]
    exact hplayed

/-- Two days with an azan at 18:00 and its announcement. -/
theorem plays_day_after_day_twice :
    let inputs := Inputs.daily .maghrib ⟨1080, by decide⟩
    let start : Instant := ⟨0, .utc⟩
    let azan (day : Int) := Event.azan .maghrib ⟨day⟩ ⟨1080, by decide⟩
    let announcement (day : Int) := Event.announcement .maghrib ⟨day⟩ ⟨1065, by decide⟩
    start.date.dayNumber + (1 : Nat) < Date.last.dayNumber ∧
      ∃ e, Engine.new {} start = .ok e ∧
        ((e.rebuild inputs).andThen (·.driveUntil inputs (start.endAfter 1))).heard =
          [(announcement 0, some "announcement-maghrib.mp3", ⟨63900000, .utc⟩),
            (azan 0, some "azan.mp3", ⟨64800000, .utc⟩),
            (announcement 1, some "announcement-maghrib.mp3", ⟨150300000, .utc⟩),
            (azan 1, some "azan.mp3", ⟨151200000, .utc⟩)] := by
  intro inputs start azan announcement
  obtain ⟨e, hcreated⟩ : ∃ e, Engine.new {} start = .ok e := ⟨_, rfl⟩
  have hreliable : inputs.Reliable
      (fun _ => .new (PrayerTable.empty.insert .maghrib ⟨1080, by decide⟩) .empty)
      (PrayerTable.empty.insert .maghrib .allEnabled) ⟨true, true⟩ :=
    ⟨fun _ => rfl, rfl, rfl, fun _ => rfl⟩
  have hinCalendar : start.date.dayNumber + (1 : Nat) < Date.last.dayNumber := by decide
  refine ⟨hinCalendar, e, hcreated, ?_⟩
  rw [(plays_day_after_day hcreated hreliable 1 hinCalendar).1]
  cbv

end Engine

end Muezzin
