import Muezzin.Schedule

/-!
# The keys of a schedule

Whatever the times and the switches are, a schedule draws its keys from the same eleven: an azan
and an announcement for each of the five prayers with a congregation, and the rollover. It uses
each at most once and the rollover exactly once, so its events never replace one another when they
are registered.
-/

namespace Muezzin

namespace Event

@[simp] theorem kind_azan (p : Prayer) (date : Date) (time : TimeOfDay) :
    (azan p date time).kind = .azan := rfl

@[simp] theorem kind_announcement (p : Prayer) (date : Date) (time : TimeOfDay) :
    (announcement p date time).kind = .announcement := rfl

@[simp] theorem kind_rollover (date : Date) (time : TimeOfDay) :
    (rollover date time).kind = .rollover := rfl

/-- An event as a schedule makes it. -/
inductive Proper : Event → Prop
  | azan {p : Prayer} (hcongregational : p ∈ Prayer.congregational) (date : Date)
      (time : TimeOfDay) : Proper (azan p date time)
  | announcement {p : Prayer} (hcongregational : p ∈ Prayer.congregational) (date : Date)
      (time : TimeOfDay) : Proper (announcement p date time)
  | rollover (date : Date) (time : TimeOfDay) : Proper (rollover date time)

def prayerKeys (p : Prayer) : List String :=
  [azanKey p, announcementKey p]

def keys : List String :=
  Prayer.congregational.flatMap prayerKeys ++ [rolloverKey]

theorem length_keys : keys.length = 11 := rfl

theorem nodup_keys : keys.Nodup := by decide

theorem Proper.key_mem {e : Event} (hproper : e.Proper) : e.key ∈ keys := by
  cases hproper with
  | @azan p hp date time =>
    exact List.mem_append_left _ (List.mem_flatMap.2 ⟨p, hp, List.mem_cons_self⟩)
  | @announcement p hp date time =>
    have hsecond : announcementKey p ∈ prayerKeys p := List.mem_cons_of_mem _ List.mem_cons_self
    exact List.mem_append_left _ (List.mem_flatMap.2 ⟨p, hp, hsecond⟩)
  | rollover date time => exact List.mem_append_right _ List.mem_cons_self

theorem Proper.prayer_of_ne_rollover {e : Event} (hproper : e.Proper)
    (hplays : e.kind ≠ .rollover) : ∃ p ∈ Prayer.congregational, e.prayer = some p := by
  cases hproper with
  | @azan p hp date time => exact ⟨p, hp, rfl⟩
  | @announcement p hp date time => exact ⟨p, hp, rfl⟩
  | rollover date time => exact absurd rfl hplays

theorem azanKey_ne_rolloverKey (p : Prayer) : azanKey p ≠ rolloverKey := by
  cases p <;> decide

theorem announcementKey_ne_rolloverKey (p : Prayer) : announcementKey p ≠ rolloverKey := by
  cases p <;> decide

theorem azanKey_ne_announcementKey (p q : Prayer) : azanKey p ≠ announcementKey q := by
  cases p <;> cases q <;> decide

theorem azanKey_inj {p q : Prayer} (hsame : azanKey p = azanKey q) : p = q := by
  revert hsame
  cases p <;> cases q <;> decide

theorem announcementKey_inj {p q : Prayer} (hsame : announcementKey p = announcementKey q) :
    p = q := by
  revert hsame
  cases p <;> cases q <;> decide

theorem Proper.key_eq_rolloverKey_iff {e : Event} (hproper : e.Proper) :
    e.key = rolloverKey ↔ e.kind = .rollover := by
  cases hproper with
  | @azan p hp date time => exact iff_of_false (azanKey_ne_rolloverKey p) (by simp)
  | @announcement p hp date time => exact iff_of_false (announcementKey_ne_rolloverKey p) (by simp)
  | rollover date time => exact iff_of_true rfl rfl

end Event

namespace DailySchedule

variable (times : PrayerTimes) (settings : PrayerSettings) (flags : FeatureFlags) (now : Instant)
  (rolloverTime : TimeOfDay)

/-- A prayer has its azan and its announcement, its azan alone, or nothing, as the switches say. -/
theorem candidates_cases (p : Prayer) :
    candidates times settings flags now p = [] ∨
      (Enablement.resolve flags (PrayerSettings.toggles settings p)).azan ∧
      ∃ time, candidates times settings flags now p = [Event.azan p now.date time] ∨
        (Enablement.resolve flags (PrayerSettings.toggles settings p)).announcement ∧
        candidates times settings flags now p =
          [Event.azan p now.date time,
            announcementBefore p ((Event.azan p now.date time).fireAt now.zone)] := by
  unfold candidates
  dsimp only
  split
  · exact .inl rfl
  · next hon =>
    rw [Bool.not_eq_true', Bool.not_eq_false] at hon
    split
    · exact .inl rfl
    · next time htime =>
      split
      · next hannounced => exact .inr ⟨hon, time, .inr ⟨hannounced, rfl⟩⟩
      · exact .inr ⟨hon, time, .inl rfl⟩

theorem proper_of_mem_candidates {p : Prayer} (hp : p ∈ Prayer.congregational) {e : Event}
    (he : e ∈ candidates times settings flags now p) : e.Proper ∧ e.kind ≠ .rollover := by
  rcases candidates_cases times settings flags now p with h | ⟨-, time, h | ⟨-, h⟩⟩
  · rw [h] at he
    simp at he
  · rw [h, List.mem_singleton] at he
    subst he
    exact ⟨.azan hp _ _, by simp⟩
  · rw [h, List.mem_cons, List.mem_singleton] at he
    rcases he with rfl | rfl
    · exact ⟨.azan hp _ _, by simp⟩
    · exact ⟨.announcement hp _ _, by simp [announcementBefore]⟩

theorem map_key_candidates_sublist (p : Prayer) :
    ((candidates times settings flags now p).map Event.key).Sublist (Event.prayerKeys p) := by
  rcases candidates_cases times settings flags now p with h | ⟨-, time, h | ⟨-, h⟩⟩
  · rw [h]
    exact List.nil_sublist _
  · rw [h]
    exact List.singleton_sublist.2 List.mem_cons_self
  · rw [h]
    exact List.Sublist.refl _

theorem map_key_flatMap_candidates_sublist (ps : List Prayer) :
    ((ps.flatMap (candidates times settings flags now)).map Event.key).Sublist
      (ps.flatMap Event.prayerKeys) := by
  induction ps with
  | nil => exact List.nil_sublist _
  | cons p ps ih =>
    rw [List.flatMap_cons, List.flatMap_cons, List.map_append]
    exact (map_key_candidates_sublist times settings flags now p).append ih

theorem map_key_events_sublist :
    ((build times settings flags now rolloverTime).events.map Event.key).Sublist Event.keys := by
  rw [build, List.map_append]
  apply List.Sublist.append
  · exact (List.filter_sublist.map _).trans
      (map_key_flatMap_candidates_sublist times settings flags now _)
  · exact List.Sublist.refl _

theorem nodup_map_key_events :
    ((build times settings flags now rolloverTime).events.map Event.key).Nodup :=
  (map_key_events_sublist times settings flags now rolloverTime).nodup Event.nodup_keys

theorem mem_events_cases {e : Event}
    (he : e ∈ (build times settings flags now rolloverTime).events) :
    (e.Proper ∧ e.kind ≠ .rollover ∧ now < e.fireAt now.zone) ∨
      e = Event.rollover (rolloverDate now.date) rolloverTime := by
  rcases List.mem_append.1 he with he | he
  · rw [List.mem_filter, List.mem_flatMap, decide_eq_true_eq] at he
    obtain ⟨⟨p, hp, he⟩, hfuture⟩ := he
    obtain ⟨hproper, hplays⟩ := proper_of_mem_candidates times settings flags now hp he
    exact .inl ⟨hproper, hplays, hfuture⟩
  · exact .inr (List.mem_singleton.1 he)

theorem proper_of_mem_events {e : Event}
    (he : e ∈ (build times settings flags now rolloverTime).events) : e.Proper := by
  rcases mem_events_cases times settings flags now rolloverTime he with ⟨hproper, -, -⟩ | rfl
  · exact hproper
  · exact .rollover _ _

theorem proper_of_mem_skipped {e : Event}
    (he : e ∈ (build times settings flags now rolloverTime).skipped) : e.Proper := by
  obtain ⟨p, hp, he⟩ := List.mem_flatMap.1 (List.mem_filter.1 he).1
  exact (proper_of_mem_candidates times settings flags now hp he).1

/-- A schedule has exactly one rollover, on the next date. -/
theorem filter_rollover_events :
    (build times settings flags now rolloverTime).events.filter (·.kind = .rollover) =
      [Event.rollover (rolloverDate now.date) rolloverTime] := by
  have hothers : ((Prayer.congregational.flatMap (candidates times settings flags now)).filter
      fun e => decide (now < e.fireAt now.zone)).filter (·.kind = .rollover) = [] := by
    apply List.filter_eq_nil_iff.2
    intro e he
    have hkept := List.mem_append_left [Event.rollover (rolloverDate now.date) rolloverTime] he
    rw [List.mem_filter, List.mem_flatMap] at he
    obtain ⟨⟨p, hp, he⟩, -⟩ := he
    have hplays := (proper_of_mem_candidates times settings flags now hp he).2
    rwa [decide_eq_true_eq]
  rw [build, List.filter_append, hothers]
  rfl

theorem rolloverDate_of_next {today tomorrow : Date} (hsuccessor : today.next? = some tomorrow) :
    rolloverDate today = tomorrow := by
  rw [rolloverDate, hsuccessor, Option.getD_some]

end DailySchedule

end Muezzin
