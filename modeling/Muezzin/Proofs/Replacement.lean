import Muezzin.Proofs.EngineBooks
import Muezzin.Rehearsal.Basic

/-!
# A rebuild forgets what was before

A rebuild begins with whatever an engine happens to have: registrations, reports that wait, and a
memory of recent runs. It claims what is due and cancels the rest, and what it does next reads
only the clock and the inputs. So everything that waits afterwards follows from these, and a rebuild
that does not get its inputs leaves nothing behind.
-/

namespace Muezzin

namespace EngineEvent

def endsRebuild : EngineEvent → Bool
  | rebuilt _ _ _ => true
  | rebuildFailed _ => true
  | _ => false

def isSkipped : EngineEvent → Bool
  | skipped _ => true
  | _ => false

end EngineEvent

def Outcome.events (o : Outcome) : List EngineEvent :=
  o.actions.filterMap Action.event?

theorem Inputs.load_eq_ok_iff {inputs : Inputs} {date : Date} {day : DayInputs} :
    inputs.load date = .ok day ↔
      inputs.times date = .ok (some day.times) ∧ inputs.settings = .ok (some day.settings) ∧
        inputs.flags = .ok day.flags := by
  obtain ⟨times, settings, flags⟩ := day
  rcases htimes : inputs.times date with e | _ | times' <;>
    rcases hsettings : inputs.settings with e | _ | settings' <;>
      rcases hflags : inputs.flags with e | flags' <;>
        simp [load, htimes, hsettings, hflags, bind, Except.bind]

namespace Registry

def enrolAll (r : Registry) (gs : List Registration) : Registry where
  timers :=
    { r.timers with
      pending := r.timers.pending ++ gs.map Registration.alarm
      issued := r.timers.issued + gs.length }
  live := r.live ++ gs
  issued := r.issued + gs.length

theorem enrolAll_nil (r : Registry) : r.enrolAll [] = r := by
  simp [enrolAll]

theorem enrolAll_cons (r : Registry) (g : Registration) (gs : List Registration) :
    r.enrolAll (g :: gs) = (r.enrol g).enrolAll gs := by
  simp [enrolAll, enrol, Nat.add_assoc, Nat.add_comm 1]

end Registry

/-- The action settles one of the claims of a rebuild. -/
def Action.SettlesOneOf (a : Action) (inputs : Inputs) (rs : List Registration) : Prop :=
  ∃ r ∈ rs, ∃ f d, Settlement f inputs r d a ∧ (r.event.kind = .rollover → a = .superseded r)

/-- The registrations are those of the events, in their order, at their instants in the zone. -/
def Registration.AreOf (gs : List Registration) (events : List Event) (zone : Zone) : Prop :=
  gs.map (fun g => (g.event, g.due)) = events.map fun ev => (ev, ev.fireAt zone)

namespace Engine

/-- Every timer that waits belongs to a live registration that has not been reported. -/
def TimersOwned (e : Engine) : Prop :=
  ∀ t ∈ e.timers.pending, ∃ r ∈ e.registry.live, r.timer = t.id ∧ r.fire ∉ e.fires

theorem timersOwned_of_books {e : Engine} (hbooks : e.registry.Consistent e.fires) :
    e.TimersOwned := by
  intro t ht
  obtain ⟨r, hr, rfl⟩ := hbooks.owned t ht
  exact ⟨r, hr, rfl, (hbooks.armed_iff r hr).1 ht⟩

theorem settleAll_spec (inputs : Inputs) (rs : List Registration) (e : Engine) :
    (∃ d, (settleAll inputs rs e).engine = { e with debounce := d }) ∧
      ∀ a ∈ (settleAll inputs rs e).actions, a.SettlesOneOf inputs rs := by
  induction rs generalizing e with
  | nil => exact ⟨⟨e.debounce, rfl⟩, by simp [settleAll]⟩
  | cons r rs ih =>
    obtain ⟨d, a, hsettled, hreplaced, houtcome⟩ := settleDue_settles e inputs r
    obtain ⟨⟨last, hengine⟩, hactions⟩ := ih { e with debounce := d }
    rw [settleAll, houtcome]
    refine ⟨⟨last, hengine⟩, fun b hb => ?_⟩
    rcases List.mem_cons.1 hb with rfl | hb
    · exact ⟨r, List.mem_cons_self, e, d, hsettled, hreplaced⟩
    · obtain ⟨g, hg, hrest⟩ := hactions b hb
      exact ⟨g, List.mem_cons_of_mem _ hg, hrest⟩

theorem mem_live_claimFires {r : Registration} {fires : List Fire} {registry : Registry}
    (hlive : r ∈ registry.live) (hunreported : r.fire ∉ fires) :
    r ∈ (claimFires fires registry).2.live := by
  induction fires generalizing registry with
  | nil => exact hlive
  | cons report fires ih =>
    obtain ⟨hother, hlater⟩ := List.ne_and_not_mem_of_not_mem_cons hunreported
    rcases registry.takeFired_cases report with ⟨g, -, rfl, htaken⟩ | ⟨-, htaken⟩
    · rw [claimFires, htaken]
      refine ih (Registry.mem_remove.2 ⟨hlive, ?_⟩) hlater
      rintro rfl
      exact hother rfl
    · rw [claimFires, htaken]
      exact ih hlive hlater

theorem clock_claimDue (e : Engine) : e.claimDue.2.clock = e.clock := by
  show ((claimFires e.fires e.registry).2.dropAll _).timers.clock = _
  rw [Registry.dropAll_eq, timers_claimFires]
  rfl

/-- The registry of an engine after a rebuild has claimed what is due and cancelled the rest. -/
def emptied (e : Engine) : Registry :=
  e.claimDue.2.registry.cancelAll.2

theorem live_emptied (e : Engine) : e.emptied.live = [] :=
  Registry.live_cancelAll _

theorem clock_emptied (e : Engine) : e.emptied.timers.clock = e.clock := by
  rw [← clock_claimDue e]
  show (Registry.dropAll _ _).timers.clock = _
  rw [Registry.dropAll_eq]
  rfl

theorem pending_emptied {e : Engine} (howned : e.TimersOwned) : e.emptied.timers.pending = [] := by
  apply List.eq_nil_iff_forall_not_mem.2
  intro t ht
  obtain ⟨ht, hnotCancelled⟩ := Registry.mem_pending_cancelAll.1 ht
  obtain ⟨ht, hnotDue⟩ := Registry.mem_pending_takeDue.1 ht
  rw [timers_claimFires] at ht
  -- The owner has no report, so it was not claimed by one and is still there to be dropped.
  obtain ⟨r, hlive, htimer, hunreported⟩ := howned t ht
  have hkept := mem_live_claimFires hlive hunreported
  by_cases hdue : r.due ≤ e.clock
  · exact hnotDue r hkept hdue htimer
  · exact hnotCancelled r (Registry.mem_live_takeDue.2 ⟨hkept, hdue⟩) htimer

theorem engine_deliverDue (e : Engine) (inputs : Inputs) :
    (e.deliverDue inputs).engine =
      { e.claimDue.2 with debounce := (e.deliverDue inputs).engine.debounce } := by
  obtain ⟨⟨d, hengine⟩, -⟩ := settleAll_spec inputs e.claimDue.1 e.claimDue.2
  have hwhole : (e.deliverDue inputs).engine = { e.claimDue.2 with debounce := d } := hengine
  rw [hwhole]

def prepared (e : Engine) (inputs : Inputs) : Engine :=
  { e with
    registry := e.emptied
    debounce := (e.deliverDue inputs).engine.debounce
    fires := [] }

theorem clock_prepared (e : Engine) (inputs : Inputs) : (e.prepared inputs).clock = e.clock :=
  clock_emptied e

def partings (e : Engine) (inputs : Inputs) : List Action :=
  (e.deliverDue inputs).actions ++ [.cancelled e.claimDue.2.registry.listing]

/-- A rebuild is the building of a schedule in an engine where nothing waits. -/
theorem rebuild_eq (e : Engine) (inputs : Inputs) :
    e.rebuild inputs = (⟨e.prepared inputs, e.partings inputs⟩ : Outcome).andThen fun f =>
      f.build inputs e.claimDue.2.registry.listing.length := by
  have hcleared : (e.deliverDue inputs).engine.clear =
      (e.claimDue.2.registry.listing.length,
        ⟨e.prepared inputs, [.cancelled e.claimDue.2.registry.listing]⟩) := by
    rw [engine_deliverDue]
    rfl
  simp only [rebuild, Outcome.andThen, hcleared, partings, List.append_assoc]

theorem arm_eq {events : List Event} (hdistinct : (events.map Event.key).Nodup) {e : Engine}
    (hfree : ∀ r ∈ e.registry.live, r.key ∉ events.map Event.key) :
    ∃ gs, Registration.AreOf gs events e.clock.zone ∧
      arm events e = ⟨{ e with registry := e.registry.enrolAll gs }, gs.map .armed⟩ := by
  induction events generalizing e with
  | nil => exact ⟨[], rfl, by rw [Registry.enrolAll_nil]; rfl⟩
  | cons event events ih =>
    obtain ⟨-, hfreeLater, harmed⟩ := arm_cons hdistinct hfree
    let first := e.registry.upcoming event (event.fireAt e.clock.zone)
    obtain ⟨gs, hentries, houtcome⟩ := ih (List.nodup_cons.1 hdistinct).2
      (e := { e with registry := e.registry.enrol first }) hfreeLater
    refine ⟨first :: gs, ?_, ?_⟩
    · rw [Registration.AreOf, List.map_cons, hentries]
      rfl
    · rw [harmed, Outcome.andThen, houtcome, Registry.enrolAll_cons]
      rfl

end Engine

def DayInputs.schedule (day : DayInputs) (now : Instant) (rolloverTime : TimeOfDay) :
    DailySchedule :=
  DailySchedule.build day.times day.settings day.flags now rolloverTime

/-- What is recorded of a schedule before its events are registered. -/
def DayInputs.remarks (day : DayInputs) (schedule : DailySchedule) : List Action :=
  schedule.untimed.map (fun p => .untimed p (PrayerSettings.toggles day.settings p).azanAtIqamah) ++
    schedule.skipped.map .skipped

def Inputs.remarks (inputs : Inputs) (date : Date) : List Action :=
  .loading date :: (inputs.complaints date).map .misread

namespace Engine

theorem build_of_load {e : Engine} {inputs : Inputs} {day : DayInputs}
    (hempty : e.registry.live = []) (hloaded : inputs.load e.clock.date = .ok day)
    (cancelled : Nat) :
    ∃ gs, Registration.AreOf gs (day.schedule e.clock e.rolloverTime).events e.clock.zone ∧
      e.build inputs cancelled =
        ⟨{ e with registry := e.registry.enrolAll gs },
          inputs.remarks e.clock.date ++
            (day.remarks (day.schedule e.clock e.rolloverTime) ++ gs.map .armed ++
              [.rebuilt e.clock.date gs.length
                (day.schedule e.clock e.rolloverTime).skipped.length cancelled])⟩ := by
  obtain ⟨gs, hentries, harmed⟩ := arm_eq (e := e)
    (DailySchedule.nodup_map_key_events day.times day.settings day.flags e.clock e.rolloverTime)
    (by simp [hempty])
  have hsize : (e.registry.enrolAll gs).size = gs.length := by
    simp [Registry.size, Registry.enrolAll, hempty]
  refine ⟨gs, hentries, ?_⟩
  simp only [build, armSchedule, Outcome.andThen, hloaded, harmed, hsize]
  rfl

theorem build_of_error {e : Engine} {inputs : Inputs} {reason : Error}
    (hmissing : inputs.load e.clock.date = .error reason) (cancelled : Nat) :
    e.build inputs cancelled = ⟨e, inputs.remarks e.clock.date ++ [.rebuildFailed reason]⟩ := by
  simp only [build, Outcome.andThen, hmissing]
  rfl

theorem rebuild_of_load {e : Engine} {inputs : Inputs} {day : DayInputs}
    (hloaded : inputs.load e.clock.date = .ok day) :
    ∃ gs, Registration.AreOf gs (day.schedule e.clock e.rolloverTime).events e.clock.zone ∧
      e.rebuild inputs =
        ⟨{ e.prepared inputs with registry := e.emptied.enrolAll gs },
          e.partings inputs ++ (inputs.remarks e.clock.date ++
            (day.remarks (day.schedule e.clock e.rolloverTime) ++ gs.map .armed ++
              [.rebuilt e.clock.date gs.length
                (day.schedule e.clock e.rolloverTime).skipped.length
                e.claimDue.2.registry.listing.length]))⟩ := by
  have hloaded' : inputs.load (e.prepared inputs).clock.date = .ok day := by
    rw [clock_prepared]
    exact hloaded
  obtain ⟨gs, hentries, houtcome⟩ :=
    build_of_load (live_emptied e) hloaded' e.claimDue.2.registry.listing.length
  rw [clock_prepared] at hentries houtcome
  refine ⟨gs, hentries, ?_⟩
  rw [rebuild_eq]
  simp only [Outcome.andThen, houtcome]
  rfl

theorem rebuild_of_error {e : Engine} {inputs : Inputs} {reason : Error}
    (hmissing : inputs.load e.clock.date = .error reason) :
    e.rebuild inputs =
      ⟨e.prepared inputs,
        e.partings inputs ++ (inputs.remarks e.clock.date ++ [.rebuildFailed reason])⟩ := by
  have hmissing' : inputs.load (e.prepared inputs).clock.date = .error reason := by
    rw [clock_prepared]
    exact hmissing
  rw [rebuild_eq]
  simp only [Outcome.andThen, build_of_error hmissing', clock_prepared]

/-- First a rebuild settles its claims, and what it does then settles nothing. -/
theorem actions_rebuild (e : Engine) (inputs : Inputs) :
    ∃ later, (e.rebuild inputs).actions = (e.deliverDue inputs).actions ++ later ∧
      ∀ a ∈ later, a.settles? = none := by
  have hremark {a : Action} (h : a ∈ inputs.remarks e.clock.date) : a.settles? = none := by
    rcases List.mem_cons.1 h with rfl | h
    · rfl
    · obtain ⟨complaint, -, rfl⟩ := List.mem_map.1 h
      rfl
  cases hloaded : inputs.load e.clock.date with
  | ok day =>
    obtain ⟨gs, -, houtcome⟩ := rebuild_of_load hloaded
    rw [houtcome, partings, List.append_assoc]
    refine ⟨_, rfl, fun a h => ?_⟩
    simp only [List.mem_append, DayInputs.remarks, List.mem_map, List.mem_singleton] at h
    rcases h with rfl | h | (((⟨p, -, rfl⟩ | ⟨ev, -, rfl⟩) | ⟨g, -, rfl⟩) | rfl)
    · rfl
    · exact hremark h
    all_goals rfl
  | error reason =>
    rw [rebuild_of_error hloaded, partings, List.append_assoc]
    refine ⟨_, rfl, fun a h => ?_⟩
    simp only [List.mem_append, List.mem_singleton] at h
    rcases h with rfl | h | rfl
    · rfl
    · exact hremark h
    · rfl

/-- Besides settling what it claimed, a rebuild settles nothing. -/
theorem mem_actions_rebuild {e : Engine} {inputs : Inputs} {a : Action}
    (hdone : a ∈ (e.rebuild inputs).actions) :
    a.SettlesOneOf inputs e.claimDue.1 ∨ a.settles? = none := by
  obtain ⟨later, hactions, hsilent⟩ := actions_rebuild e inputs
  rw [hactions] at hdone
  rcases List.mem_append.1 hdone with hearly | hlate
  · exact .inl ((settleAll_spec inputs e.claimDue.1 e.claimDue.2).2 a hearly)
  · exact .inr (hsilent a hlate)

end Engine

theorem Inputs.filterMap_remarks (inputs : Inputs) (date : Date) :
    (inputs.remarks date).filterMap Action.event? = [] := by
  apply List.filterMap_eq_nil_iff.2
  intro a ha
  rcases List.mem_cons.1 ha with rfl | ha
  · rfl
  · obtain ⟨complaint, -, rfl⟩ := List.mem_map.1 ha
    rfl

theorem DayInputs.filterMap_remarks (day : DayInputs) (schedule : DailySchedule) :
    (day.remarks schedule).filterMap Action.event? =
      schedule.skipped.map fun ev => .skipped ev.key := by
  have hsilent : (schedule.untimed.map fun p =>
      Action.untimed p (PrayerSettings.toggles day.settings p).azanAtIqamah).filterMap
        Action.event? = [] := by
    apply List.filterMap_eq_nil_iff.2
    intro a ha
    obtain ⟨p, -, rfl⟩ := List.mem_map.1 ha
    rfl
  rw [remarks, List.filterMap_append, hsilent, List.nil_append, List.filterMap_map,
    ← List.filterMap_eq_map]
  rfl

theorem Action.filterMap_armed (gs : List Registration) :
    (gs.map Action.armed).filterMap Action.event? = [] := by
  apply List.filterMap_eq_nil_iff.2
  intro a ha
  obtain ⟨g, -, rfl⟩ := List.mem_map.1 ha
  rfl

theorem Engine.told_partings {e : Engine} {inputs : Inputs} {ev : EngineEvent}
    (htold : ev ∈ (e.partings inputs).filterMap Action.event?) :
    ev.endsRebuild = false ∧ ev.isSkipped = false := by
  obtain ⟨a, ha, htold⟩ := List.mem_filterMap.1 htold
  rcases List.mem_append.1 ha with ha | ha
  · obtain ⟨r, -, f, d, hsettled, -⟩ := (settleAll_spec inputs e.claimDue.1 e.claimDue.2).2 a ha
    cases hsettled with
    | suppressed | withdrawn =>
      cases htold
      exact ⟨rfl, rfl⟩
    | handedOff | unvoiced | ignored | superseded | rolledOver => cases htold
  · rw [List.mem_singleton.1 ha] at htold
    cases htold

/-- Exactly a schedule waits, and listeners are told its size once. -/
structure Outcome.Schedules (o : Outcome) (schedule : DailySchedule) (zone : Zone) : Prop where
  entries : Registration.AreOf o.engine.registry.live schedule.events zone
  found : ∀ r ∈ o.engine.registry.live, o.engine.registry.find? r.event.key = some r
  size : o.engine.registry.size = schedule.events.length
  told : ∃ cancelled, o.events.filter EngineEvent.endsRebuild =
    [.rebuilt schedule.events.length (o.events.countP EngineEvent.isSkipped) cancelled]

/-- Nothing waits, and listeners are told of one failure. -/
structure Outcome.Empties (o : Outcome) : Prop where
  live : o.engine.registry.live = []
  size : o.engine.registry.size = 0
  told : ∃ reason, o.events.filter EngineEvent.endsRebuild = [.rebuildFailed reason]

namespace Engine

theorem schedules_rebuild {e : Engine} {inputs : Inputs} {day : DayInputs}
    (hloaded : inputs.load e.clock.date = .ok day) :
    (e.rebuild inputs).Schedules (day.schedule e.clock e.rolloverTime) e.clock.zone := by
  obtain ⟨gs, hentries, houtcome⟩ := rebuild_of_load hloaded
  have hlive : (e.rebuild inputs).engine.registry.live = gs := by
    rw [houtcome]
    show e.emptied.live ++ gs = gs
    rw [live_emptied, List.nil_append]
  have hevents : gs.map Registration.event = (day.schedule e.clock e.rolloverTime).events := by
    have hfirst := congrArg (List.map Prod.fst) hentries
    simpa [List.map_map, Function.comp_def] using hfirst
  have hsize : gs.length = (day.schedule e.clock e.rolloverTime).events.length := by
    rw [← hevents, List.length_map]
  have hkeys : (gs.map Registration.key).Nodup := by
    have hdistinct := DailySchedule.nodup_map_key_events day.times day.settings day.flags e.clock
      e.rolloverTime
    show (gs.map (Event.key ∘ Registration.event)).Nodup
    rw [← List.map_map, hevents]
    exact hdistinct
  have hsilent : ((e.partings inputs).filterMap Action.event?).filter EngineEvent.endsRebuild = []
      ∧ ((e.partings inputs).filterMap Action.event?).countP EngineEvent.isSkipped = 0 := by
    constructor
    · exact List.filter_eq_nil_iff.2 fun ev htold => by simp [(told_partings htold).1]
    · exact List.countP_eq_zero.2 fun ev htold => by simp [(told_partings htold).2]
  refine ⟨by rw [hlive]; exact hentries, fun r hr => ?_, by rw [Registry.size, hlive, hsize], ?_⟩
  · rw [hlive] at hr
    exact Registry.find?_eq_some (by rw [hlive]; exact hkeys) (by rw [hlive]; exact hr)
  · refine ⟨e.claimDue.2.registry.listing.length, ?_⟩
    rw [Outcome.events, houtcome]
    simp only [List.filterMap_append, List.filter_append, List.countP_append, hsilent,
      Inputs.filterMap_remarks, DayInputs.filterMap_remarks, Action.filterMap_armed]
    simp [Action.event?, hsize, EngineEvent.endsRebuild, EngineEvent.isSkipped, List.filter_map,
      List.countP_map, Function.comp_def]

theorem empties_rebuild {e : Engine} {inputs : Inputs} {reason : Error}
    (hmissing : inputs.load e.clock.date = .error reason) : (e.rebuild inputs).Empties := by
  have houtcome := rebuild_of_error hmissing
  have hlive : (e.rebuild inputs).engine.registry.live = [] := by
    rw [houtcome]
    exact live_emptied e
  refine ⟨hlive, by rw [Registry.size, hlive]; rfl, reason, ?_⟩
  have hsilent :
      ((e.partings inputs).filterMap Action.event?).filter EngineEvent.endsRebuild = [] :=
    List.filter_eq_nil_iff.2 fun ev htold => by simp [(told_partings htold).1]
  rw [Outcome.events, houtcome]
  simp only [List.filterMap_append, List.filter_append, hsilent, Inputs.filterMap_remarks]
  rfl

/-- What waits after a rebuild depends on the clock and the inputs alone. -/
theorem entries_rebuild {e f : Engine} (hclock : f.clock = e.clock)
    (hrolloverTime : f.rolloverTime = e.rolloverTime) (inputs : Inputs) :
    (f.rebuild inputs).engine.registry.live.map (fun r => (r.event, r.due)) =
      (e.rebuild inputs).engine.registry.live.map (fun r => (r.event, r.due)) := by
  cases hloaded : inputs.load e.clock.date with
  | ok day =>
    have hother := (schedules_rebuild (hclock ▸ hloaded : inputs.load f.clock.date = _)).entries
    rw [hclock, hrolloverTime] at hother
    exact hother.trans (schedules_rebuild hloaded).entries.symm
  | error reason =>
    have hother := (empties_rebuild (hclock ▸ hloaded : inputs.load f.clock.date = _)).live
    rw [hother, (empties_rebuild hloaded).live]

theorem engine_rebuild (e : Engine) (inputs : Inputs) :
    ∃ gs, (e.rebuild inputs).engine =
      { e.prepared inputs with registry := e.emptied.enrolAll gs } := by
  cases hloaded : inputs.load e.clock.date with
  | ok day =>
    obtain ⟨gs, -, houtcome⟩ := rebuild_of_load hloaded
    rw [houtcome]
    exact ⟨gs, rfl⟩
  | error reason =>
    rw [rebuild_of_error hloaded]
    exact ⟨[], by rw [Registry.enrolAll_nil]; rfl⟩

theorem clock_rebuild (e : Engine) (inputs : Inputs) :
    (e.rebuild inputs).engine.clock = e.clock := by
  obtain ⟨gs, hengine⟩ := engine_rebuild e inputs
  rw [hengine]
  exact clock_emptied e

theorem audio_rebuild (e : Engine) (inputs : Inputs) :
    (e.rebuild inputs).engine.audio = e.audio := by
  obtain ⟨gs, hengine⟩ := engine_rebuild e inputs
  rw [hengine]
  rfl

theorem rolloverTime_rebuild (e : Engine) (inputs : Inputs) :
    (e.rebuild inputs).engine.rolloverTime = e.rolloverTime := by
  obtain ⟨gs, hengine⟩ := engine_rebuild e inputs
  rw [hengine]
  rfl

theorem debounce_rebuild (e : Engine) (inputs : Inputs) :
    (e.rebuild inputs).engine.debounce = (e.deliverDue inputs).engine.debounce := by
  obtain ⟨gs, hengine⟩ := engine_rebuild e inputs
  rw [hengine]
  rfl

theorem pending_rebuild {e : Engine} (howned : e.TimersOwned) (inputs : Inputs) :
    (e.rebuild inputs).engine.timers.pending =
      (e.rebuild inputs).engine.registry.live.map Registration.alarm := by
  cases hloaded : inputs.load e.clock.date with
  | ok day =>
    obtain ⟨gs, -, houtcome⟩ := rebuild_of_load hloaded
    rw [houtcome]
    show e.emptied.timers.pending ++ gs.map Registration.alarm =
      (e.emptied.live ++ gs).map Registration.alarm
    rw [pending_emptied howned, live_emptied]
    rfl
  | error reason =>
    rw [rebuild_of_error hloaded]
    show e.emptied.timers.pending = e.emptied.live.map Registration.alarm
    rw [pending_emptied howned, live_emptied]
    rfl

end Engine

end Muezzin
