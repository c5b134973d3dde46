import Muezzin.Proofs.DayPlans
import Muezzin.Proofs.Turns

/-!
# No announcement without its azan

A schedule that has an announcement has the azan a quarter of an hour later, because only what is
past is left out. The azan then outlives the announcement: timers fire in the order of their
deadlines and reports are handled in the order in which they came in, so the announcement is
claimed first, and whatever else takes the azan away takes everything away. This needs no clock that
goes on: a clock that is set back delays what has not fired and does not change the order.
-/

namespace Muezzin

namespace DailySchedule

/-- An announcement is a quarter of an hour before its azan, on the same date or the one before. -/
theorem fireAt_announcementBefore (p : Prayer) (time : TimeOfDay) (date : Date) (zone : Zone) :
    ((announcementBefore p (time.on date zone)).fireAt zone).addMinutes 15 =
      time.on date zone := by
  let i := (time.on date zone).addMinutes (-announcementLead)
  have hbefore : (announcementBefore p (time.on date zone)).fireAt zone = i :=
    TimeOfDay.on_ofInstant_addMinutes time date zone (-announcementLead)
  have hback : i.millis + 60000 * 15 = (time.on date zone).millis := by
    show (time.on date zone).millis + 60000 * (-15) + 60000 * 15 = _
    omega
  rw [hbefore]
  exact congrArg (Instant.mk · zone) hback

/-- Whenever an announcement is scheduled, its azan is scheduled too. -/
theorem exists_azan_of_mem_events {times : PrayerTimes} {settings : PrayerSettings}
    {flags : FeatureFlags} {now : Instant} {rolloverTime : TimeOfDay} {ev : Event}
    (hscheduled : ev ∈ (build times settings flags now rolloverTime).events) {p : Prayer}
    (hannounces : ev.key = Event.announcementKey p) :
    ∃ azan ∈ (build times settings flags now rolloverTime).events,
      azan.key = Event.azanKey p ∧ azan.fireAt now.zone = (ev.fireAt now.zone).addMinutes 15 := by
  rcases List.mem_append.1 hscheduled with hkept | hlast
  · rw [List.mem_filter, List.mem_flatMap, decide_eq_true_eq] at hkept
    obtain ⟨⟨q, hcongregational, hcandidate⟩, hfuture⟩ := hkept
    rcases candidates_cases times settings flags now q with
      hnone | ⟨-, time, halone | ⟨-, hboth⟩⟩
    · rw [hnone] at hcandidate
      cases hcandidate
    · rw [halone, List.mem_singleton] at hcandidate
      rw [hcandidate] at hannounces
      exact absurd hannounces (Event.azanKey_ne_announcementKey q p)
    · let azan := Event.azan q now.date time
      have hlisted : azan ∈ candidates times settings flags now q := by
        rw [hboth]
        exact List.mem_cons_self
      rw [hboth, List.mem_cons, List.mem_singleton] at hcandidate
      rcases hcandidate with rfl | rfl
      · exact absurd hannounces (Event.azanKey_ne_announcementKey q p)
      · obtain rfl := Event.announcementKey_inj hannounces
        have hlater : now < azan.fireAt now.zone :=
          Int.lt_of_lt_of_le hfuture (fireAt_announcementBefore_le q (azan.fireAt now.zone))
        refine ⟨azan, List.mem_append_left _ (List.mem_filter.2 ⟨?_, decide_eq_true hlater⟩), rfl,
          (fireAt_announcementBefore q time now.date now.zone).symm⟩
        exact List.mem_flatMap.2 ⟨q, hcongregational, hlisted⟩
  · rw [List.mem_singleton.1 hlast] at hannounces
    exact absurd hannounces.symm (Event.announcementKey_ne_rolloverKey p)

end DailySchedule

theorem Registration.AreOf.exists_due_eq {gs : List Registration} {events : List Event}
    {zone : Zone} (h : AreOf gs events zone) {ev : Event} (hlisted : ev ∈ events) :
    ∃ g ∈ gs, g.event = ev ∧ g.due = ev.fireAt zone := by
  have hentry : (ev, ev.fireAt zone) ∈ gs.map fun g => (g.event, g.due) :=
    h ▸ List.mem_map_of_mem (f := fun ev : Event => (ev, ev.fireAt zone)) hlisted
  obtain ⟨g, hg, hsame⟩ := List.mem_map.1 hentry
  exact ⟨g, hg, Prod.mk.inj hsame⟩

/-- Whoever is due earlier is reported earlier. -/
def Registry.InOrder (r : Registry) (reports : List Fire) : Prop :=
  ∀ g ∈ r.live, ∀ h ∈ r.live, g.due < h.due → ∀ earlier later,
    reports = earlier ++ h.fire :: later → g.fire ∈ earlier

namespace Registry.InOrder

variable {r : Registry} {reports : List Fire}

theorem of_nil (r : Registry) : r.InOrder [] := by
  intro g _ h _ _ earlier later hreported
  cases earlier <;> cases hreported

theorem of_subset {s : Registry} (horder : r.InOrder reports) (hkept : ∀ g ∈ s.live, g ∈ r.live) :
    s.InOrder reports :=
  fun g hg h hh => horder g (hkept g hg) h (hkept h hh)

theorem tail {report : Fire} (horder : r.InOrder (report :: reports))
    (hstale : ∀ g ∈ r.live, g.fire ≠ report) : r.InOrder reports := by
  intro g hg h hh hless earlier later hreported
  have hbefore := horder g hg h hh hless (report :: earlier) later (by rw [hreported]; rfl)
  exact (List.mem_cons.1 hbefore).resolve_left (hstale g hg)

/-- Nobody live is due before the one who is reported first. -/
theorem due_le_of_head {g h : Registration} (horder : r.InOrder (h.fire :: reports))
    (hg : g ∈ r.live) (hh : h ∈ r.live) : h.due ≤ g.due := by
  refine Int.not_lt.1 fun hless => ?_
  cases horder g hg h hh hless [] reports rfl

theorem claim {h : Registration} (horder : r.InOrder (h.fire :: reports))
    (hbooks : r.Consistent (h.fire :: reports)) (hh : h ∈ r.live) :
    (r.remove h).InOrder reports := by
  refine (horder.of_subset fun g hg => (mem_remove.1 hg).1).tail fun g hg hsame => ?_
  exact (mem_remove.1 hg).2 (hbooks.eq_of_fire_eq (mem_remove.1 hg).1 hh hsame)

/-- A timer that fires is the earliest of those that wait, so its report may come last. -/
theorem fire (horder : r.InOrder reports) (hbooks : r.Consistent reports) {target : Instant}
    {timer : Timer Fire} {timers : Timeline Fire}
    (hpopped : r.timers.popDue? target = some (timer, timers)) :
    (r.withTimers timers).InOrder (reports ++ [timer.payload]) := by
  intro g hg h hh hless earlier later hreported
  rcases List.eq_nil_or_concat later with rfl | ⟨later, last, rfl⟩
  · obtain ⟨rfl, hpayload⟩ := List.append_inj' hreported rfl
    obtain ⟨owner, hlive, rfl⟩ := hbooks.owned timer (Timeline.mem_of_popDue? hpopped).1
    have hsame : owner = h := hbooks.eq_of_fire_eq hlive hh (List.singleton_inj.1 hpayload)
    subst hsame
    by_contra hunreported
    have hwaits := (hbooks.armed_iff g hg).2 hunreported
    exact absurd hless (Int.not_lt.2 (Timeline.le_of_popDue? hpopped _ hwaits))
  · rw [List.concat_eq_append, ← List.cons_append, ← List.append_assoc] at hreported
    exact horder g hg h hh hless earlier later (List.append_inj' hreported rfl).1

theorem advanceTo (horder : r.InOrder reports) (hbooks : r.Consistent reports) (target : Instant) :
    (r.withTimers (r.timers.advanceTo target).2).InOrder
      (reports ++ (r.timers.advanceTo target).1.map (·.payload)) := by
  let Agree (fired : List (Timer Fire)) (timers : Timeline Fire) : Prop :=
    (r.withTimers timers).Consistent (reports ++ fired.map (·.payload)) ∧
      (r.withTimers timers).InOrder (reports ++ fired.map (·.payload))
  have hstart : Agree [] r.timers := by
    simp only [Agree, List.map_nil, List.append_nil]
    exact ⟨hbooks, horder⟩
  refine (Timeline.advanceTo_induction (motive := Agree) ?_ ?_ hstart).2
  · rintro fired timers timer later ⟨hbooks, horder⟩ hpopped
    simp only [Agree, List.map_append, List.map_singleton, ← List.append_assoc]
    exact ⟨(hbooks.fire hpopped).setClock _, (horder.fire hbooks hpopped).of_subset fun _ => id⟩
  · rintro fired timers ⟨hbooks, horder⟩ -
    exact ⟨hbooks.setClock _, horder.of_subset fun _ => id⟩

end Registry.InOrder

namespace Engine

/-- Every announcement that waits is followed by its azan, and reports wait in the order of their
deadlines. -/
structure Escorted (e : Engine) : Prop where
  inOrder : e.registry.InOrder e.fires
  followed : ∀ p, ∀ r ∈ e.registry.live, r.key = Event.announcementKey p →
    ∃ azan ∈ e.registry.live, azan.key = Event.azanKey p ∧ azan.due = r.due.addMinutes 15

namespace Escorted

variable {e : Engine}

theorem of_empty (hempty : e.registry.live = []) : e.Escorted where
  inOrder g hg := by
    rw [hempty] at hg
    cases hg
  followed p r hr := by
    rw [hempty] at hr
    cases hr

/-- A schedule that has just been built is complete, and nobody has been reported. -/
theorem rebuild (e : Engine) (inputs : Inputs) : (e.rebuild inputs).engine.Escorted := by
  cases hloaded : inputs.load e.clock.date with
  | error reason => exact .of_empty (empties_rebuild hloaded).live
  | ok day =>
    have hentries := (schedules_rebuild hloaded).entries
    refine ⟨?_, fun p r hlive hannounces => ?_⟩
    · rw [(Prod.mk.inj (queues_rebuild e inputs)).1]
      exact .of_nil _
    · obtain ⟨hscheduled, hdue⟩ := hentries.due_eq hlive
      obtain ⟨ev, halso, hkey, hlater⟩ :=
        DailySchedule.exists_azan_of_mem_events hscheduled hannounces
      obtain ⟨azan, hazanLive, rfl, hazanDue⟩ := hentries.exists_due_eq halso
      exact ⟨azan, hazanLive, hkey, by rw [hazanDue, hlater, hdue]⟩

/-- The first report claims nobody's azan while the announcement waits. -/
theorem claim (hescorted : e.Escorted) (hbooks : e.registry.Consistent e.fires) {r : Registration}
    {fires : List Fire} (hwaiting : e.fires = r.fire :: fires) (hlive : r ∈ e.registry.live)
    (d : Debounce Int) : ({ e.claimed r fires with debounce := d } : Engine).Escorted := by
  obtain ⟨hinOrder, hfollowed⟩ := hescorted
  rw [hwaiting] at hbooks hinOrder
  refine ⟨hinOrder.claim hbooks hlive, fun p g hg hannounces => ?_⟩
  have hwaited : g ∈ e.registry.live := (Registry.mem_remove.1 hg).1
  obtain ⟨azan, hazanLive, hkey, hdue⟩ := hfollowed p g hwaited hannounces
  refine ⟨azan, Registry.mem_remove.2 ⟨hazanLive, ?_⟩, hkey, hdue⟩
  rintro rfl
  have hnotLater := hinOrder.due_le_of_head hwaited hlive
  rw [hdue] at hnotLater
  exact absurd hnotLater (Int.not_le.2 (Int.lt_add_of_pos_right _ (by decide)))

theorem handleFire (hescorted : e.Escorted) (hbooks : e.registry.Consistent e.fires)
    {report : Fire} {fires : List Fire} (hwaiting : e.fires = report :: fires) (inputs : Inputs) :
    (({ e with fires } : Engine).handleFire inputs report).engine.Escorted := by
  rcases handleFire_cases { e with fires } inputs report with
    ⟨hstale, houtcome⟩ | ⟨r, hlive, rfl, ⟨-, d, a, -, houtcome⟩ | ⟨-, houtcome⟩⟩
  · rw [houtcome]
    obtain ⟨hinOrder, hfollowed⟩ := hescorted
    rw [hwaiting] at hinOrder
    exact ⟨hinOrder.tail hstale, hfollowed⟩
  · rw [houtcome]
    exact hescorted.claim hbooks hwaiting hlive d
  · rw [houtcome]
    by_cases hallowed : (e.claimed r fires).debounce.allows r.key (e.claimed r fires).clock.millis
    · show ((e.claimed r fires).rollOver inputs r).engine.Escorted
      rw [rollOver_of_allows hallowed]
      exact .rebuild _ inputs
    · show ((e.claimed r fires).rollOver inputs r).engine.Escorted
      rw [rollOver_of_not_allows hallowed]
      exact hescorted.claim hbooks hwaiting hlive e.debounce

theorem perform (hescorted : e.Escorted) (hbooks : e.registry.Consistent e.fires) {op : Operation}
    (hturn : op.IsTurn) : (e.perform op).engine.Escorted := by
  cases op with
  | process => exact absurd hturn id
  | rebuild inputs => exact .rebuild e inputs
  | clear => exact .of_empty (Registry.live_cancelAll _)
  | request command => exact ⟨hescorted.inOrder, hescorted.followed⟩
  | setClock i => exact ⟨hescorted.inOrder.of_subset fun _ => id, hescorted.followed⟩
  | advanceTo target => exact ⟨hescorted.inOrder.advanceTo hbooks target, hescorted.followed⟩
  | next inputs =>
    rw [Engine.perform]
    unfold nextMessage?
    split
    · next message rest hwaiting =>
      split at hwaiting
      · next report fires hfires =>
        cases hwaiting
        exact hescorted.handleFire hbooks hfires inputs
      · next command commands hfires hcommands =>
        cases hwaiting
        cases command with
        | reschedule reason => exact .rebuild { e with commands } inputs
        | clear => exact .of_empty (Registry.live_cancelAll _)
      · cases hwaiting
    · exact hescorted

end Escorted

theorem escorted_run {config : SchedulerConfig} {clock : Instant} {e : Engine}
    (hcreated : Engine.new config clock = .ok e) {turns : List Operation}
    (hturns : ∀ op ∈ turns, op.IsTurn) : (e.run turns).engine.Escorted := by
  induction turns using List.reverseRecOn with
  | nil =>
    obtain ⟨-, rfl⟩ := new_eq hcreated
    exact .of_empty rfl
  | append_singleton turns op ih =>
    have hbooks := (sound_run hcreated turns).books
    rw [run_snoc]
    exact (ih fun op h => hturns op (List.mem_append_left _ h)).perform hbooks
      (hturns op (by simp))

/-- However an engine is driven and its clock is set, no announcement waits without its azan, which
is due a quarter of an hour later. -/
theorem announcement_followed {config : SchedulerConfig} {clock : Instant} {e : Engine}
    (hcreated : Engine.new config clock = .ok e) (ops : List Operation) {p : Prayer}
    {r : Registration}
    (hwaits : (e.run ops).engine.registry.find? (Event.announcementKey p) = some r) :
    ∃ azan, (e.run ops).engine.registry.find? (Event.azanKey p) = some azan ∧
      azan.due = r.due.addMinutes 15 := by
  have hbooks := (sound_run hcreated ops).books
  have hturns : ∀ op ∈ e.unroll ops, op.IsTurn := fun op => isTurn_of_mem_unroll
  have hescorted := escorted_run hcreated hturns
  rw [run_unroll] at hescorted
  have hkey : r.key = Event.announcementKey p := by simpa using List.find?_some hwaits
  obtain ⟨azan, hlive, hazanKey, hdue⟩ :=
    hescorted.followed p r (List.mem_of_find?_eq_some hwaits) hkey
  exact ⟨azan, hazanKey ▸ Registry.find?_eq_some hbooks.keys_nodup hlive, hdue⟩

/-- The announcement has been reported and not handled, and the clock has gone back. -/
theorem announcement_followed_set_back :
    ∃ e, Engine.new {} ⟨0, .utc⟩ = .ok e ∧ ∃ ops r azan,
      (e.run ops).engine.registry.find? (Event.announcementKey .maghrib) = some r ∧
      (e.run ops).engine.registry.find? (Event.azanKey .maghrib) = some azan ∧
      azan.due = r.due.addMinutes 15 := by
  obtain ⟨e, hcreated⟩ : ∃ e, Engine.new {} ⟨0, .utc⟩ = .ok e := ⟨_, rfl⟩
  let inputs := Inputs.daily .maghrib ⟨1080, by decide⟩
  let ops : List Operation := [.rebuild inputs, .advanceTo ⟨63900000, .utc⟩,
    .setClock ⟨0, .utc⟩]
  let r : Registration := ⟨2, 2, .announcement .maghrib ⟨0⟩ ⟨1065, by decide⟩, ⟨63900000, .utc⟩⟩
  have hwaits : (e.run ops).engine.registry.find? (Event.announcementKey .maghrib) = some r := by
    rw [(new_eq hcreated).2]
    cbv
  obtain ⟨azan, hfound, hdue⟩ := announcement_followed hcreated ops hwaits
  exact ⟨e, hcreated, ops, r, azan, hwaits, hfound, hdue⟩

end Engine

end Muezzin
