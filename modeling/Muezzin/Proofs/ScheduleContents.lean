import Muezzin.Proofs.Announcements

/-!
# What a schedule contains

The switches and the times of a day say which azans and announcements there are, each of them at an
instant of its own. The instant of building sorts them into those that are still to come and those
that are past, and the rollover comes last. That leaves no choice: what fits the inputs of a day is
what is built from them.
-/

namespace Muezzin

/-- The azan of a prayer is to play at a time of the day. -/
structure DayInputs.Calls (day : DayInputs) (p : Prayer) (time : TimeOfDay) : Prop where
  congregational : p ∈ Prayer.congregational
  switches : day.flags.azan ∧ (PrayerSettings.toggles day.settings p).azan
  chosen :
    if (PrayerSettings.toggles day.settings p).azanAtIqamah then
      day.times.iqamahs.get? p = some time
    else day.times.starts.get? p = some time

def DayInputs.Announces (day : DayInputs) (p : Prayer) : Prop :=
  day.flags.announcement ∧ (PrayerSettings.toggles day.settings p).announcement

namespace DailySchedule

def all (s : DailySchedule) : List Event :=
  s.events ++ s.skipped

/-- The schedule is what the inputs of the day ask for at the instant. -/
structure Fits (s : DailySchedule) (day : DayInputs) (now : Instant) (tomorrow : Date)
    (rolloverTime : TimeOfDay) : Prop where
  azan_iff (p : Prayer) : (∃ ev ∈ s.all, ev.key = Event.azanKey p) ↔ ∃ time, day.Calls p time
  announcement_iff (p : Prayer) : (∃ ev ∈ s.all, ev.key = Event.announcementKey p) ↔
    (∃ ev ∈ s.all, ev.key = Event.azanKey p) ∧ day.Announces p
  /-- An azan fires when a clock in the zone shows its time on the local date. -/
  azan_eq {p : Prayer} {ev : Event} (hlisted : ev ∈ s.all) (hkey : ev.key = Event.azanKey p) :
    ∃ time, day.Calls p time ∧ ev = Event.azan p now.date time ∧
      (ev.fireAt now.zone).zone = now.zone ∧ (ev.fireAt now.zone).date = now.date ∧
      (ev.fireAt now.zone).millisOfDay = millisPerMinute * time.minutes
  /-- An announcement fires a quarter of an hour before its azan, on whatever date that is. -/
  announcement_eq {p : Prayer} {ev : Event} (hlisted : ev ∈ s.all)
    (hkey : ev.key = Event.announcementKey p) :
    ev.kind = .announcement ∧ ev.prayer = some p ∧
      ∃ azan ∈ s.all, azan.key = Event.azanKey p ∧
        (ev.fireAt now.zone).addMinutes 15 = azan.fireAt now.zone
  mem_events_iff {ev : Event} (hlisted : ev ∈ s.all) : ev ∈ s.events ↔ now < ev.fireAt now.zone
  mem_skipped_iff {ev : Event} (hlisted : ev ∈ s.all) : ev ∈ s.skipped ↔ ¬ now < ev.fireAt now.zone
  escorted {p : Prayer} {ev : Event} (hscheduled : ev ∈ s.events)
    (hkey : ev.key = Event.announcementKey p) : ∃ azan ∈ s.events, azan.key = Event.azanKey p
  rollover_last : ∃ plays, s.events = plays ++ [Event.rollover tomorrow rolloverTime] ∧
    ∀ ev ∈ plays ++ s.skipped, ev.kind ≠ .rollover ∧ ev.key ≠ Event.rolloverKey
  rollover_later : now < (Event.rollover tomorrow rolloverTime).fireAt now.zone ∧
    ((Event.rollover tomorrow rolloverTime).fireAt now.zone).date = tomorrow ∧
    ((Event.rollover tomorrow rolloverTime).fireAt now.zone).millisOfDay =
      millisPerMinute * rolloverTime.minutes
  keys_nodup : (s.all.map Event.key).Nodup
  events_ordered : (s.events.map Event.key).Sublist Event.keys
  skipped_ordered : (s.skipped.map Event.key).Sublist Event.keys

end DailySchedule

namespace DayInputs

variable {day : DayInputs} {p : Prayer} {time : TimeOfDay}

theorem calls_iff :
    day.Calls p time ↔ p ∈ Prayer.congregational ∧
      (day.flags.azan ∧ (PrayerSettings.toggles day.settings p).azan) ∧
        DailySchedule.azanTime day.times day.settings p = some time := by
  have hsame :
      (if (PrayerSettings.toggles day.settings p).azanAtIqamah then
        day.times.iqamahs.get? p = some time
      else day.times.starts.get? p = some time) ↔
        DailySchedule.azanTime day.times day.settings p = some time := by
    unfold DailySchedule.azanTime
    split <;> exact Iff.rfl
  exact ⟨fun ⟨hcongregational, hswitches, hchosen⟩ => ⟨hcongregational, hswitches, hsame.1 hchosen⟩,
    fun ⟨hcongregational, hswitches, hchosen⟩ => ⟨hcongregational, hswitches, hsame.2 hchosen⟩⟩

theorem Calls.unique {other : TimeOfDay} (hcalls : day.Calls p time) (hagain : day.Calls p other) :
    time = other :=
  Option.some.inj ((calls_iff.1 hcalls).2.2.symm.trans (calls_iff.1 hagain).2.2)

end DayInputs

namespace DailySchedule

variable {day : DayInputs} {now : Instant} {tomorrow : Date} {rolloverTime : TimeOfDay}

/-- A prayer that has an azan has an announcement before it if both switches for that are on. -/
theorem mem_candidates_iff {p : Prayer} (hcongregational : p ∈ Prayer.congregational) {ev : Event} :
    ev ∈ candidates day.times day.settings day.flags now p ↔
      ∃ time, day.Calls p time ∧
        (ev = Event.azan p now.date time ∨
          day.Announces p ∧ ev = announcementBefore p (time.on now.date now.zone)) := by
  unfold candidates
  dsimp only
  split
  · next hoff =>
    refine iff_of_false List.not_mem_nil ?_
    rintro ⟨time, hcalls, -⟩
    simp [Enablement.resolve, hcalls.switches] at hoff
  · next hon =>
    have hswitches : day.flags.azan ∧ (PrayerSettings.toggles day.settings p).azan := by
      simpa [Enablement.resolve] using hon
    split
    · next huntimed =>
      refine iff_of_false List.not_mem_nil ?_
      rintro ⟨time, hcalls, -⟩
      rw [DayInputs.calls_iff, huntimed] at hcalls
      cases hcalls.2.2
    · next time htimed =>
      have hcalled : day.Calls p time :=
        DayInputs.calls_iff.2 ⟨hcongregational, hswitches, htimed⟩
      have hannounced : (Enablement.resolve day.flags
          (PrayerSettings.toggles day.settings p)).announcement ↔ day.Announces p := by
        simp [Enablement.resolve, hswitches, DayInputs.Announces]
      constructor
      · intro hlisted
        refine ⟨time, hcalled, ?_⟩
        split at hlisted
        · next hboth =>
          rw [List.mem_cons, List.mem_singleton] at hlisted
          exact hlisted.imp_right (⟨hannounced.1 hboth, ·⟩)
        · exact .inl (List.mem_singleton.1 hlisted)
      · rintro ⟨other, hcalls, hevent⟩
        obtain rfl := hcalled.unique hcalls
        split
        · rw [List.mem_cons, List.mem_singleton]
          exact hevent.imp_right And.right
        · next halone =>
          rcases hevent with hazan | ⟨hboth, -⟩
          · exact List.mem_singleton.2 hazan
          · exact absurd (hannounced.2 hboth) halone

def plays (day : DayInputs) (now : Instant) : List Event :=
  Prayer.congregational.flatMap (candidates day.times day.settings day.flags now)

theorem mem_plays_iff {ev : Event} :
    ev ∈ plays day now ↔
      ∃ p time, day.Calls p time ∧
        (ev = Event.azan p now.date time ∨
          day.Announces p ∧ ev = announcementBefore p (time.on now.date now.zone)) := by
  rw [plays, List.mem_flatMap]
  constructor
  · rintro ⟨p, hcongregational, hcandidate⟩
    exact ⟨p, (mem_candidates_iff hcongregational).1 hcandidate⟩
  · rintro ⟨p, time, hcalls, hevent⟩
    exact ⟨p, hcalls.congregational,
      (mem_candidates_iff hcalls.congregational).2 ⟨time, hcalls, hevent⟩⟩

theorem ne_rollover_of_mem_plays {ev : Event} (h : ev ∈ plays day now) :
    ev.kind ≠ .rollover ∧ ev.key ≠ Event.rolloverKey := by
  obtain ⟨p, time, -, rfl | ⟨-, rfl⟩⟩ := mem_plays_iff.1 h
  · exact ⟨by simp, Event.azanKey_ne_rolloverKey p⟩
  · exact ⟨by simp [announcementBefore], Event.announcementKey_ne_rolloverKey p⟩

theorem exists_calls_of_azan {ev : Event} (h : ev ∈ plays day now) {p : Prayer}
    (hkey : ev.key = Event.azanKey p) :
    ∃ time, day.Calls p time ∧ ev = Event.azan p now.date time := by
  obtain ⟨q, time, hcalls, rfl | ⟨-, rfl⟩⟩ := mem_plays_iff.1 h
  · obtain rfl := Event.azanKey_inj hkey
    exact ⟨time, hcalls, rfl⟩
  · exact absurd hkey.symm (Event.azanKey_ne_announcementKey p q)

theorem exists_calls_of_announcement {ev : Event} (h : ev ∈ plays day now) {p : Prayer}
    (hkey : ev.key = Event.announcementKey p) :
    ∃ time, day.Calls p time ∧ day.Announces p ∧
      ev = announcementBefore p (time.on now.date now.zone) := by
  obtain ⟨q, time, hcalls, rfl | ⟨hboth, rfl⟩⟩ := mem_plays_iff.1 h
  · exact absurd hkey (Event.azanKey_ne_announcementKey q p)
  · obtain rfl := Event.announcementKey_inj hkey
    exact ⟨time, hcalls, hboth, rfl⟩

theorem map_key_plays_sublist (day : DayInputs) (now : Instant) :
    ((plays day now).map Event.key).Sublist (Prayer.congregational.flatMap Event.prayerKeys) :=
  map_key_flatMap_candidates_sublist day.times day.settings day.flags now _

theorem events_schedule (day : DayInputs) (now : Instant) (rolloverTime : TimeOfDay) :
    (day.schedule now rolloverTime).events =
      (plays day now).filter (fun ev => decide (now < ev.fireAt now.zone)) ++
        [Event.rollover (rolloverDate now.date) rolloverTime] := rfl

theorem skipped_schedule (day : DayInputs) (now : Instant) (rolloverTime : TimeOfDay) :
    (day.schedule now rolloverTime).skipped =
      (plays day now).filter fun ev => !decide (now < ev.fireAt now.zone) := rfl

/-- No event is lost or doubled when they are sorted into those to come and those past. -/
theorem perm_all_schedule (day : DayInputs) (now : Instant) (rolloverTime : TimeOfDay) :
    (day.schedule now rolloverTime).all.Perm
      (plays day now ++ [Event.rollover (rolloverDate now.date) rolloverTime]) := by
  rw [all, events_schedule, skipped_schedule, List.append_assoc]
  refine (List.Perm.append_left _ List.perm_append_comm).trans ?_
  rw [← List.append_assoc]
  exact (List.filter_append_perm _ _).append_right _

theorem mem_all_schedule_iff {ev : Event} (hother : ev.key ≠ Event.rolloverKey) :
    ev ∈ (day.schedule now rolloverTime).all ↔ ev ∈ plays day now := by
  rw [(perm_all_schedule day now rolloverTime).mem_iff, List.mem_append, List.mem_singleton]
  refine or_iff_left ?_
  rintro rfl
  exact hother rfl

theorem exists_azan_iff (p : Prayer) :
    (∃ ev ∈ (day.schedule now rolloverTime).all, ev.key = Event.azanKey p) ↔
      ∃ time, day.Calls p time := by
  constructor
  · rintro ⟨ev, hlisted, hkey⟩
    rw [mem_all_schedule_iff (hkey ▸ Event.azanKey_ne_rolloverKey p)] at hlisted
    obtain ⟨time, hcalls, -⟩ := exists_calls_of_azan hlisted hkey
    exact ⟨time, hcalls⟩
  · rintro ⟨time, hcalls⟩
    refine ⟨Event.azan p now.date time, ?_, rfl⟩
    rw [mem_all_schedule_iff (Event.azanKey_ne_rolloverKey p)]
    exact mem_plays_iff.2 ⟨p, time, hcalls, .inl rfl⟩

theorem exists_announcement_iff (p : Prayer) :
    (∃ ev ∈ (day.schedule now rolloverTime).all, ev.key = Event.announcementKey p) ↔
      (∃ time, day.Calls p time) ∧ day.Announces p := by
  constructor
  · rintro ⟨ev, hlisted, hkey⟩
    rw [mem_all_schedule_iff (hkey ▸ Event.announcementKey_ne_rolloverKey p)] at hlisted
    obtain ⟨time, hcalls, hboth, -⟩ := exists_calls_of_announcement hlisted hkey
    exact ⟨⟨time, hcalls⟩, hboth⟩
  · rintro ⟨⟨time, hcalls⟩, hboth⟩
    refine ⟨announcementBefore p (time.on now.date now.zone), ?_, rfl⟩
    rw [mem_all_schedule_iff (Event.announcementKey_ne_rolloverKey p)]
    exact mem_plays_iff.2 ⟨p, time, hcalls, .inr ⟨hboth, rfl⟩⟩

theorem lt_fireAt_rollover (hsuccessor : now.date.next? = some tomorrow)
    (rolloverTime : TimeOfDay) :
    now < (Event.rollover tomorrow rolloverTime).fireAt now.zone := by
  have hlater := lt_rollover (Option.isSome_iff_exists.2 ⟨tomorrow, hsuccessor⟩) rolloverTime
  rwa [rolloverDate_of_next hsuccessor] at hlater

/-- The instant of building alone decides whether an event is to come. -/
theorem mem_schedule_iff (hsuccessor : now.date.next? = some tomorrow) {ev : Event}
    (hlisted : ev ∈ (day.schedule now rolloverTime).all) :
    (ev ∈ (day.schedule now rolloverTime).events ↔ now < ev.fireAt now.zone) ∧
      (ev ∈ (day.schedule now rolloverTime).skipped ↔ ¬ now < ev.fireAt now.zone) := by
  rw [(perm_all_schedule day now rolloverTime).mem_iff, List.mem_append,
    List.mem_singleton] at hlisted
  simp only [events_schedule, skipped_schedule, List.mem_append, List.mem_filter,
    List.mem_singleton, Bool.not_eq_true', decide_eq_true_eq, decide_eq_false_iff_not]
  rcases hlisted with hknown | hrolls
  · have hplays : ev ≠ Event.rollover (rolloverDate now.date) rolloverTime := by
      rintro rfl
      exact (ne_rollover_of_mem_plays hknown).1 rfl
    simp [hknown, hplays]
  · have hlater := lt_fireAt_rollover hsuccessor rolloverTime
    rw [← rolloverDate_of_next hsuccessor, ← hrolls] at hlater
    simp [hrolls ▸ hlater, hrolls]

theorem fits_schedule (hsuccessor : now.date.next? = some tomorrow) :
    (day.schedule now rolloverTime).Fits day now tomorrow rolloverTime where
  azan_iff := exists_azan_iff
  announcement_iff p := by rw [exists_announcement_iff, exists_azan_iff]
  azan_eq {p ev} hlisted hkey := by
    rw [mem_all_schedule_iff (hkey ▸ Event.azanKey_ne_rolloverKey p)] at hlisted
    obtain ⟨time, hcalls, rfl⟩ := exists_calls_of_azan hlisted hkey
    exact ⟨time, hcalls, rfl, rfl, time.date_on _ _, time.millisOfDay_on _ _⟩
  announcement_eq {p ev} hlisted hkey := by
    rw [mem_all_schedule_iff (hkey ▸ Event.announcementKey_ne_rolloverKey p)] at hlisted
    obtain ⟨time, hcalls, -, rfl⟩ := exists_calls_of_announcement hlisted hkey
    refine ⟨rfl, rfl, Event.azan p now.date time, ?_, rfl, ?_⟩
    · rw [mem_all_schedule_iff (Event.azanKey_ne_rolloverKey p)]
      exact mem_plays_iff.2 ⟨p, time, hcalls, .inl rfl⟩
    · exact fireAt_announcementBefore p time now.date now.zone
  mem_events_iff hlisted := (mem_schedule_iff hsuccessor hlisted).1
  mem_skipped_iff hlisted := (mem_schedule_iff hsuccessor hlisted).2
  escorted hscheduled hkey := by
    obtain ⟨azan, halso, hown, -⟩ := exists_azan_of_mem_events hscheduled hkey
    exact ⟨azan, halso, hown⟩
  rollover_last := by
    refine ⟨(plays day now).filter (fun ev => decide (now < ev.fireAt now.zone)), ?_, ?_⟩
    · rw [events_schedule, rolloverDate_of_next hsuccessor]
    · intro ev h
      have hknown : ev ∈ plays day now :=
        (List.mem_append.1 h).elim List.mem_of_mem_filter List.mem_of_mem_filter
      exact ne_rollover_of_mem_plays hknown
  rollover_later := ⟨lt_fireAt_rollover hsuccessor rolloverTime,
    rolloverTime.date_on _ _, rolloverTime.millisOfDay_on _ _⟩
  keys_nodup := by
    rw [((perm_all_schedule day now rolloverTime).map Event.key).nodup_iff, List.map_append]
    exact ((map_key_plays_sublist day now).append (List.Sublist.refl _)).nodup Event.nodup_keys
  events_ordered := map_key_events_sublist _ _ _ _ _
  skipped_ordered := by
    refine ((List.filter_sublist.map _).trans (map_key_plays_sublist day now)).trans ?_
    exact List.sublist_append_left _ _

end DailySchedule

theorem Event.mem_keys_cases {key : String} (hknown : key ∈ keys) :
    (∃ p, key = azanKey p) ∨ (∃ p, key = announcementKey p) ∨ key = rolloverKey := by
  rcases List.mem_append.1 hknown with hplays | hrolls
  · obtain ⟨p, -, hown⟩ := List.mem_flatMap.1 hplays
    rw [prayerKeys, List.mem_cons, List.mem_singleton] at hown
    exact hown.imp (⟨p, ·⟩) fun hown => .inl ⟨p, hown⟩
  · exact .inr (.inr (List.mem_singleton.1 hrolls))

/-- Lists of the same events in the order of their keys are equal. -/
theorem Event.eq_of_ordered {xs ys : List Event} (hsame : ∀ ev, ev ∈ xs ↔ ev ∈ ys)
    (hleft : (xs.map key).Sublist keys) (hright : (ys.map key).Sublist keys) : xs = ys := by
  have hdistinct := hright.nodup nodup_keys
  have hperm : xs.Perm ys :=
    (List.perm_ext_iff_of_nodup (.of_map key (hleft.nodup nodup_keys)) (.of_map key hdistinct)).2
    hsame
  have haligned : xs.map key = ys.map key :=
    (nodup_keys.perm_iff_eq_of_sublist hleft hright).1 (hperm.map key)
  refine List.ext_getElem hperm.length_eq fun i hx hy => ?_
  refine List.inj_on_of_nodup_map hdistinct ((hsame _).1 (List.getElem_mem hx))
    (List.getElem_mem hy) ?_
  have hentry := List.getElem_of_eq haligned (by rwa [List.length_map] : i < (xs.map key).length)
  rwa [List.getElem_map, List.getElem_map] at hentry

namespace DailySchedule.Fits

variable {s t : DailySchedule} {day : DayInputs} {now : Instant} {tomorrow : Date}
  {rolloverTime : TimeOfDay}

theorem key_mem (hfits : s.Fits day now tomorrow rolloverTime) {ev : Event} (hlisted : ev ∈ s.all) :
    ev.key ∈ Event.keys := by
  rcases List.mem_append.1 hlisted with hscheduled | hskipped
  · exact hfits.events_ordered.subset (List.mem_map_of_mem hscheduled)
  · exact hfits.skipped_ordered.subset (List.mem_map_of_mem hskipped)

theorem rollover_mem (hfits : s.Fits day now tomorrow rolloverTime) :
    Event.rollover tomorrow rolloverTime ∈ s.all := by
  obtain ⟨plays, hevents, -⟩ := hfits.rollover_last
  rw [all, hevents]
  exact List.mem_append_left _ (List.mem_append_right _ List.mem_cons_self)

theorem azan_mem (hfits : s.Fits day now tomorrow rolloverTime) {p : Prayer} {time : TimeOfDay}
    (hcalls : day.Calls p time) : Event.azan p now.date time ∈ s.all := by
  obtain ⟨ev, hlisted, hkey⟩ := (hfits.azan_iff p).2 ⟨time, hcalls⟩
  obtain ⟨other, hagain, rfl, -⟩ := hfits.azan_eq hlisted hkey
  rwa [hcalls.unique hagain]

/-- The azan tells its announcement: the instant before it has one date and one time of day. -/
theorem announcement_unique (hfits : s.Fits day now tomorrow rolloverTime)
    (hother : t.Fits day now tomorrow rolloverTime) {p : Prayer} {ev ev' : Event}
    (hlisted : ev ∈ s.all) (hkey : ev.key = Event.announcementKey p)
    (hlisted' : ev' ∈ t.all) (hkey' : ev'.key = Event.announcementKey p) : ev = ev' := by
  obtain ⟨hkind, hprayer, azan, hazanListed, hazanKey, hlead⟩ := hfits.announcement_eq hlisted hkey
  obtain ⟨hkind', hprayer', azan', hazanListed', hazanKey', hlead'⟩ :=
    hother.announcement_eq hlisted' hkey'
  obtain ⟨time, hcalls, rfl, -⟩ := hfits.azan_eq hazanListed hazanKey
  obtain ⟨time', hcalls', rfl, -⟩ := hother.azan_eq hazanListed' hazanKey'
  obtain rfl := hcalls.unique hcalls'
  have hinstants : ev.time.on ev.date now.zone = ev'.time.on ev'.date now.zone := by
    have hmillis := congrArg Instant.millis (hlead.trans hlead'.symm)
    exact congrArg (Instant.mk · now.zone) (add_right_cancel hmillis)
  obtain ⟨htimes, hdates⟩ := TimeOfDay.on_inj hinstants
  cases ev
  cases ev'
  simp_all

/-- What fits the same inputs has the same events: each is told by its key. -/
theorem mem_all (hfits : s.Fits day now tomorrow rolloverTime)
    (hother : t.Fits day now tomorrow rolloverTime) {ev : Event} (hlisted : ev ∈ s.all) :
    ev ∈ t.all := by
  rcases Event.mem_keys_cases (hfits.key_mem hlisted) with ⟨p, hkey⟩ | ⟨p, hkey⟩ | hkey
  · obtain ⟨time, hcalls, rfl, -⟩ := hfits.azan_eq hlisted hkey
    exact hother.azan_mem hcalls
  · obtain ⟨hazans, hboth⟩ := (hfits.announcement_iff p).1 ⟨ev, hlisted, hkey⟩
    have hcalled := (hfits.azan_iff p).1 hazans
    obtain ⟨ev', hlisted', hkey'⟩ :=
      (hother.announcement_iff p).2 ⟨(hother.azan_iff p).2 hcalled, hboth⟩
    rwa [hfits.announcement_unique hother hlisted hkey hlisted' hkey']
  · have hsame : ev = Event.rollover tomorrow rolloverTime :=
      List.inj_on_of_nodup_map hfits.keys_nodup hlisted hfits.rollover_mem hkey
    rw [hsame]
    exact hother.rollover_mem

theorem mem_events (hfits : s.Fits day now tomorrow rolloverTime)
    (hother : t.Fits day now tomorrow rolloverTime) {ev : Event} (hscheduled : ev ∈ s.events) :
    ev ∈ t.events := by
  have hlisted := List.mem_append_left s.skipped hscheduled
  exact (hother.mem_events_iff (hfits.mem_all hother hlisted)).2
    ((hfits.mem_events_iff hlisted).1 hscheduled)

theorem mem_skipped (hfits : s.Fits day now tomorrow rolloverTime)
    (hother : t.Fits day now tomorrow rolloverTime) {ev : Event} (hskipped : ev ∈ s.skipped) :
    ev ∈ t.skipped := by
  have hlisted := List.mem_append_right s.events hskipped
  exact (hother.mem_skipped_iff (hfits.mem_all hother hlisted)).2
    ((hfits.mem_skipped_iff hlisted).1 hskipped)

theorem eq (hfits : s.Fits day now tomorrow rolloverTime)
    (hother : t.Fits day now tomorrow rolloverTime) :
    s.events = t.events ∧ s.skipped = t.skipped :=
  ⟨Event.eq_of_ordered (fun _ => ⟨hfits.mem_events hother, hother.mem_events hfits⟩)
      hfits.events_ordered hother.events_ordered,
    Event.eq_of_ordered (fun _ => ⟨hfits.mem_skipped hother, hother.mem_skipped hfits⟩)
      hfits.skipped_ordered hother.skipped_ordered⟩

end DailySchedule.Fits

/-- The schedule of a day fits its inputs, and nothing else does. -/
theorem DailySchedule.only_schedule_fits {day : DayInputs} {now : Instant} {tomorrow : Date}
    (hsuccessor : now.date.next? = some tomorrow) (rolloverTime : TimeOfDay) :
    (build day.times day.settings day.flags now rolloverTime).Fits day now tomorrow rolloverTime ∧
      ∀ s : DailySchedule, s.Fits day now tomorrow rolloverTime →
        s.events = (build day.times day.settings day.flags now rolloverTime).events ∧
          s.skipped = (build day.times day.settings day.flags now rolloverTime).skipped :=
  ⟨fits_schedule hsuccessor, fun _ hfits => hfits.eq (fits_schedule hsuccessor)⟩

/-- At midnight in a zone half an hour off: the announcement of an azan ten minutes later is on the
date before, and another azan waits for the iqamah. -/
theorem DailySchedule.only_schedule_fits_midnight :
    let starts := (PrayerTable.empty.insert .isha ⟨10, by decide⟩).insert .fajr ⟨300, by decide⟩
    let day : DayInputs :=
      ⟨.new starts (PrayerTable.empty.insert .fajr ⟨330, by decide⟩),
        (PrayerTable.empty.insert .isha .allEnabled).insert .fajr ⟨true, true, true⟩,
        ⟨true, true⟩⟩
    let now : Instant := ⟨66600000, ⟨19800⟩⟩
    let s := build day.times day.settings day.flags now .midnight
    now.date.next? = some ⟨2⟩ ∧ s.Fits day now ⟨2⟩ .midnight ∧
      s.events = [.azan .fajr ⟨1⟩ ⟨330, by decide⟩, .announcement .fajr ⟨1⟩ ⟨315, by decide⟩,
        .azan .isha ⟨1⟩ ⟨10, by decide⟩, .rollover ⟨2⟩ .midnight] ∧
      s.skipped = [.announcement .isha ⟨0⟩ ⟨1435, by decide⟩] := by
  intro starts day now s
  have hsuccessor : now.date.next? = some ⟨2⟩ := by decide
  exact ⟨hsuccessor, (only_schedule_fits hsuccessor .midnight).1, by decide, by decide⟩

end Muezzin
