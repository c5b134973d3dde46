import Muezzin.Proofs.Turns

/-!
# Why something plays

What plays was registered by the last rebuild that came to an end, from switches that allowed it
then, for an instant that was still to come. An announcement is also allowed by the switches as they
are when it plays, and a read that fails or finds nothing allows nothing. On a clock that is never
set back nothing plays before its deadline.
-/

namespace Muezzin

namespace Enablement

def allows (enablement : Enablement) : EventKind → Bool
  | .azan => enablement.azan
  | .announcement => enablement.announcement
  | .rollover => true

theorem announcement_resolve_iff {flags : FeatureFlags} {toggles : Toggles} :
    (resolve flags toggles).announcement ↔
      (flags.azan ∧ toggles.azan) ∧ flags.announcement ∧ toggles.announcement := by
  simp only [resolve, Bool.and_eq_true, and_assoc]

end Enablement

def DayInputs.Allows (day : DayInputs) (ev : Event) : Prop :=
  ∃ p, ev.prayer = some p ∧ p ≠ .sunrise ∧
    (Enablement.resolve day.flags (PrayerSettings.toggles day.settings p)).allows ev.kind

/-- The announcement for a prayer is on at the moment of its check. -/
def Inputs.Announces (inputs : Inputs) (p : Prayer) : Prop :=
  ∃ settings flags, (inputs.recheck p).settings = .ok (some settings) ∧
    (inputs.recheck p).flags = .ok flags ∧
    (Enablement.resolve flags (PrayerSettings.toggles settings p)).announcement ∧
    (flags.azan ∧ (PrayerSettings.toggles settings p).azan) ∧
    flags.announcement ∧ (PrayerSettings.toggles settings p).announcement

theorem Inputs.announces_of_withdrawal?_eq_none {inputs : Inputs} {p : Prayer}
    (hwanted : inputs.withdrawal? p = none) : inputs.Announces p := by
  unfold withdrawal? at hwanted
  split at hwanted
  · cases hwanted
  · cases hwanted
  · next settings hread =>
    split at hwanted
    · cases hwanted
    · next flags hreadFlags =>
      split at hwanted
      · next hon =>
        exact ⟨settings, flags, hread, hreadFlags, hon, Enablement.announcement_resolve_iff.1 hon⟩
      · cases hwanted

namespace DailySchedule

theorem allows_of_mem_candidates {day : DayInputs} {now : Instant} {p : Prayer} {ev : Event}
    (h : ev ∈ candidates day.times day.settings day.flags now p) :
    ev.prayer = some p ∧
      (Enablement.resolve day.flags (PrayerSettings.toggles day.settings p)).allows ev.kind := by
  rcases candidates_cases day.times day.settings day.flags now p with
    hnone | ⟨hazan, time, halone | ⟨hannounced, hboth⟩⟩
  · rw [hnone] at h
    cases h
  · rw [halone, List.mem_singleton] at h
    rw [h]
    exact ⟨rfl, hazan⟩
  · rw [hboth, List.mem_cons, List.mem_singleton] at h
    rcases h with rfl | rfl
    · exact ⟨rfl, hazan⟩
    · exact ⟨rfl, hannounced⟩

/-- What plays is in a schedule because the switches allow it, and it is still to come. -/
theorem allows_of_mem_events {day : DayInputs} {now : Instant} {time : TimeOfDay} {ev : Event}
    (h : ev ∈ (day.schedule now time).events) (hplays : ev.kind ≠ .rollover) :
    day.Allows ev ∧ now < ev.fireAt now.zone := by
  rcases List.mem_append.1 h with h | h
  · rw [List.mem_filter, List.mem_flatMap, decide_eq_true_eq] at h
    obtain ⟨⟨p, hp, h⟩, hfuture⟩ := h
    obtain ⟨hprayer, hon⟩ := allows_of_mem_candidates h
    refine ⟨⟨p, hprayer, ?_, hon⟩, hfuture⟩
    rintro rfl
    cases Prayer.mem_congregational_iff.1 hp
  · rw [List.mem_singleton.1 h] at hplays
    exact absurd rfl hplays

end DailySchedule

namespace Engine

/-- A rebuild comes to an end within the outcome and registers an event of the schedule. -/
structure Registers (e : Engine) (op : Operation) (o : Outcome) (r : Registration)
    (day : DayInputs) : Prop where
  read : ∃ inputs, op.inputs? = some inputs ∧ inputs.load e.clock.date = .ok day
  armed : .armed r ∈ o.actions
  completed : ∃ date scheduled skipped cancelled,
    .rebuilt date scheduled skipped cancelled ∈ o.actions
  scheduled : r.event ∈ (day.schedule e.clock e.rolloverTime).events
  due : r.due = r.event.fireAt e.clock.zone

/-- The last rebuild that came to an end registered the event, which its switches allowed, for an
instant after its own. -/
def Warrants (e : Engine) (turns : List Operation) (r : Registration) : Prop :=
  ∃ earlier build later day, turns = earlier ++ build :: later ∧
    (e.run earlier).engine.Registers build ((e.run earlier).engine.perform build) r day ∧
    (∀ a ∈ ((e.run (earlier ++ [build])).engine.run later).actions, a.endsRebuild = false) ∧
    day.Allows r.event ∧ (e.run earlier).engine.clock < r.due

theorem registers_rebuild {e : Engine} {op : Operation} {inputs : Inputs}
    (hasks : op.inputs? = some inputs) {r : Registration}
    (hlive : r ∈ (e.rebuild inputs).engine.registry.live) :
    ∃ day, e.Registers op (e.rebuild inputs) r day := by
  cases hloaded : inputs.load e.clock.date with
  | error reason =>
    rw [(empties_rebuild hloaded).live] at hlive
    cases hlive
  | ok day =>
    obtain ⟨hscheduled, hdue⟩ := (schedules_rebuild hloaded).entries.due_eq hlive
    obtain ⟨gs, -, houtcome⟩ := rebuild_of_load hloaded
    rw [houtcome] at hlive ⊢
    have hnew : r ∈ gs := by
      rcases List.mem_append.1 hlive with hold | hnew
      · rw [live_emptied] at hold
        cases hold
      · exact hnew
    exact ⟨day,
      { read := ⟨inputs, hasks, hloaded⟩
        armed := by simp [hnew]
        completed := ⟨e.clock.date, gs.length, (day.schedule e.clock e.rolloverTime).skipped.length,
          e.claimDue.2.registry.listing.length, by simp⟩
        scheduled := hscheduled
        due := hdue }⟩

theorem Registers.andThen {e : Engine} {op : Operation} {lead : Outcome} {next : Engine → Outcome}
    {r : Registration} {day : DayInputs}
    (hregisters : lead.engine.Registers op (next lead.engine) r day)
    (hclock : lead.engine.clock = e.clock) (htime : lead.engine.rolloverTime = e.rolloverTime) :
    e.Registers op (lead.andThen next) r day where
  read := hclock ▸ hregisters.read
  armed := List.mem_append_right _ hregisters.armed
  completed := by
    obtain ⟨date, scheduled, skipped, cancelled, hdone⟩ := hregisters.completed
    exact ⟨date, scheduled, skipped, cancelled, List.mem_append_right _ hdone⟩
  scheduled := hclock ▸ htime ▸ hregisters.scheduled
  due := hclock ▸ hregisters.due

/-- What waits after a turn has waited before, and no rebuild ended in between, or a rebuild of this
turn has registered it. -/
theorem Turn.live_cases {e : Engine} {op : Operation} {o : Outcome} (hturn : e.Turn op o)
    {r : Registration} (hlive : r ∈ o.engine.registry.live) :
    (r ∈ e.registry.live ∧ ∀ a ∈ o.actions, a.endsRebuild = false) ∨
      ∃ day, e.Registers op o r day := by
  cases hturn with
  | rest hkept _ hsilent => exact .inl ⟨hkept r hlive, fun a ha => (hsilent a ha).2⟩
  | settle _ _ hsettled =>
    refine .inl ⟨(Registry.mem_remove.1 hlive).1, fun b hb => ?_⟩
    rw [List.mem_singleton.1 hb]
    cases hsettled <;> rfl
  | rebuild hasks =>
    obtain ⟨day, hregisters⟩ := registers_rebuild hasks hlive
    exact .inr ⟨day, Registers.andThen (e := e) hregisters rfl rfl⟩
  | @rollOver inputs =>
    have hasks : (Operation.next inputs).inputs? = some inputs := rfl
    obtain ⟨day, hregisters⟩ := registers_rebuild hasks hlive
    exact .inr ⟨day, Registers.andThen (e := e) hregisters rfl rfl⟩

/-- What is known of a hand-off from the turn in which it happens. -/
structure HandsOff (e : Engine) (op : Operation) (r : Registration) (now : Instant) : Prop where
  live : r ∈ e.registry.live
  now_eq : now = e.clock
  plays : r.event.kind ≠ .rollover
  wanted : r.event.kind = .announcement →
    ∃ inputs p, op.inputs? = some inputs ∧ r.event.prayer = some p ∧ inputs.Announces p
  called : r.fire ∈ e.fires ∨ r.due ≤ e.clock

theorem handsOff_rebuild {e : Engine} {reports : List Fire}
    (hbooks : e.registry.Consistent reports) {op : Operation} {inputs : Inputs}
    (hasks : op.inputs? = some inputs) {r : Registration} {file : String} {now : Instant}
    (hdone : .handedOff r file now ∈ (e.rebuild inputs).actions) : e.HandsOff op r now := by
  obtain ⟨hclaimed, halone⟩ := settleDue_of_mem_actions_rebuild hbooks hdone rfl
  obtain ⟨d, a, hsettled, -, houtcome⟩ := settleDue_settles e.claimDue.2 inputs r
  obtain ⟨hlive, hcalled⟩ := mem_claimDue hbooks.distinct hclaimed
  rw [houtcome] at halone
  cases List.singleton_inj.1 halone
  cases hsettled with
  | handedOff hplays hwanted =>
    refine ⟨hlive, clock_claimDue e, hplays, fun hannounced => ?_, hcalled⟩
    obtain ⟨p, hprayer, hon⟩ := hwanted hannounced
    exact ⟨inputs, p, hasks, hprayer, Inputs.announces_of_withdrawal?_eq_none hon⟩

theorem Turn.handsOff {e : Engine} (hbooks : e.registry.Consistent e.fires) {op : Operation}
    {o : Outcome} (hturn : e.Turn op o) {r : Registration} {file : String} {now : Instant}
    (hdone : .handedOff r file now ∈ o.actions) : e.HandsOff op r now := by
  cases hturn with
  | rest _ _ hsilent => cases (hsilent _ hdone).1
  | @settle inputs g fires d a hwaiting hlive hsettled =>
    rw [← List.mem_singleton.1 hdone] at hsettled
    cases hsettled with
    | handedOff hplays hwanted =>
      refine ⟨hlive, rfl, hplays, fun hannounced => ?_, .inl (hwaiting ▸ List.mem_cons_self)⟩
      obtain ⟨p, hprayer, hon⟩ := hwanted hannounced
      exact ⟨inputs, p, rfl, hprayer, Inputs.announces_of_withdrawal?_eq_none hon⟩
  | @rebuild _ inputs commands lead hasks _ hsilent =>
    rcases List.mem_append.1 hdone with hearly | hlate
    · cases (hsilent _ hearly).1
    · exact { handsOff_rebuild (e := { e with commands }) hbooks hasks hlate with }
  | @rollOver inputs g fires hwaiting hlive =>
    rw [hwaiting] at hbooks
    rcases List.mem_cons.1 hdone with hother | hdone
    · cases hother
    · let f : Engine :=
        { e.claimed g fires with debounce := e.debounce.stamp g.key e.clock.millis }
      have hleft : f.registry.Consistent fires := hbooks.claim hlive
      have hhands : f.HandsOff (.next inputs) r now := handsOff_rebuild hleft rfl hdone
      exact
        { live := (Registry.mem_remove.1 hhands.live).1
          now_eq := hhands.now_eq
          plays := hhands.plays
          wanted := hhands.wanted
          called := hhands.called.imp_left fun h => hwaiting ▸ List.mem_cons_of_mem _ h }

/-- Whoever has been reported is due. -/
def Punctual (e : Engine) : Prop :=
  ∀ r ∈ e.registry.live, r.fire ∈ e.fires → r.due ≤ e.clock

theorem Turn.punctual {e : Engine} {op : Operation} {o : Outcome} (hturn : e.Turn op o)
    (honward : op.Onward e.clock) (hpunctual : e.Punctual) : o.engine.Punctual := by
  have hemptied (f : Engine) (inputs : Inputs) : (f.rebuild inputs).engine.Punctual := by
    intro r _ hreported
    rw [(Prod.mk.inj (queues_rebuild f inputs)).1] at hreported
    cases hreported
  cases hturn with
  | rest hkept _ _ hreports hgoesOn =>
    intro r hlive hreported
    rcases hreports r hlive hreported with hold | hdue
    · exact Instant.le_trans (hpunctual r (hkept r hlive) hold) (hgoesOn honward)
    · exact hdue
  | settle hwaiting =>
    intro r hlive hreported
    refine hpunctual r (Registry.mem_remove.1 hlive).1 ?_
    rw [hwaiting]
    exact List.mem_cons_of_mem _ hreported
  | rebuild | rollOver => exact hemptied _ _

theorem punctual_run {config : SchedulerConfig} {clock : Instant} {e : Engine}
    (hcreated : Engine.new config clock = .ok e) {turns : List Operation}
    (hturns : ∀ op ∈ turns, op.IsTurn) (honward : e.Onward turns) :
    (e.run turns).engine.Punctual := by
  induction turns using List.reverseRecOn with
  | nil =>
    obtain ⟨-, rfl⟩ := new_eq hcreated
    intro r hlive
    cases hlive
  | append_singleton turns op ih =>
    obtain ⟨hbefore, hlast⟩ := onward_append.1 honward
    have hbooks := (sound_run hcreated turns).books
    rw [run_snoc]
    exact (turn_perform hbooks (hturns op (by simp))).punctual hlast.1
      (ih (fun op h => hturns op (List.mem_append_left _ h)) hbefore)

/-- Whatever waits and plays has been registered by the last rebuild that came to an end. -/
theorem warrants_run {config : SchedulerConfig} {clock : Instant} {e : Engine}
    (hcreated : Engine.new config clock = .ok e) {turns : List Operation}
    (hturns : ∀ op ∈ turns, op.IsTurn) {r : Registration}
    (hlive : r ∈ (e.run turns).engine.registry.live) (hplays : r.event.kind ≠ .rollover) :
    e.Warrants turns r := by
  induction turns using List.reverseRecOn with
  | nil =>
    obtain ⟨-, rfl⟩ := new_eq hcreated
    cases hlive
  | append_singleton turns op ih =>
    have hbooks := (sound_run hcreated turns).books
    have hturn := turn_perform hbooks (hturns op (by simp))
    rw [run_snoc] at hlive
    rcases hturn.live_cases hlive with ⟨hold, hsilent⟩ | ⟨day, hregisters⟩
    · obtain ⟨earlier, build, later, day, rfl, hregisters, hlast, hallowed, hfuture⟩ :=
        ih (fun op h => hturns op (List.mem_append_left _ h)) hold
      refine ⟨earlier, build, later ++ [op], day, by simp, hregisters, fun a ha => ?_, hallowed,
        hfuture⟩
      rw [run_snoc, Outcome.actions_andThen] at ha
      rcases List.mem_append.1 ha with ha | ha
      · exact hlast a ha
      · rw [← engine_run_append, List.append_assoc, List.singleton_append] at ha
        exact hsilent a ha
    · obtain ⟨hallowed, hfuture⟩ := DailySchedule.allows_of_mem_events hregisters.scheduled hplays
      rw [← hregisters.due] at hfuture
      exact ⟨turns, op, [], day, rfl, hregisters, List.forall_mem_nil _, hallowed, hfuture⟩

/-- Nothing plays that should not: seen turn by turn, whatever is handed off was registered by the
last rebuild that came to an end, at which its kind was allowed and its deadline was still to come.
It is never for sunrise. If it is an announcement, the switches allow it as they are read for it in
this turn. If the clock is never set back, the deadline has come. -/
theorem handedOff_warranted {config : SchedulerConfig} {clock : Instant} {e : Engine}
    (hcreated : Engine.new config clock = .ok e) (ops : List Operation) :
    e.run (e.unroll ops) = e.run ops ∧
    ∀ before op after, e.unroll ops = before ++ op :: after →
      ∀ r file now, .handedOff r file now ∈ ((e.run before).engine.perform op).actions →
        now = (e.run before).engine.clock ∧
        e.Warrants before r ∧
        (∃ p, r.event.prayer = some p ∧ p ≠ .sunrise) ∧
        (r.event.kind = .announcement → ∃ inputs p, op.inputs? = some inputs ∧
          r.event.prayer = some p ∧ inputs.Announces p) ∧
        (e.Onward ops → r.due ≤ now) := by
  refine ⟨e.run_unroll ops, fun before op after hturns r file now hdone => ?_⟩
  have hallTurns : ∀ op' ∈ before ++ op :: after, op'.IsTurn := by
    rw [← hturns]
    exact fun _ => isTurn_of_mem_unroll
  have hearlier : ∀ op' ∈ before, op'.IsTurn :=
    fun op' h => hallTurns op' (List.mem_append_left _ h)
  have hbooks := (sound_run hcreated before).books
  have hturn := turn_perform hbooks (hallTurns op (by simp))
  have hhands := hturn.handsOff hbooks hdone
  have hwarrants := warrants_run hcreated hearlier hhands.live hhands.plays
  refine ⟨hhands.now_eq, hwarrants, ?_, hhands.wanted, fun honward => ?_⟩
  · obtain ⟨-, -, -, -, -, -, -, ⟨p, hprayer, hcongregational, -⟩, -⟩ := hwarrants
    exact ⟨p, hprayer, hcongregational⟩
  · have honwardTurns := onward_unroll honward
    rw [hturns] at honwardTurns
    have hpunctual := punctual_run hcreated hearlier (onward_append.1 honwardTurns).1
    rw [hhands.now_eq]
    exact hhands.called.elim (hpunctual r hhands.live) id

/-- An announcement plays at its deadline. -/
theorem handedOff_warranted_announcement :
    ∃ e, Engine.new {} ⟨0, .utc⟩ = .ok e ∧ ∃ before op r file now,
      .handedOff r file now ∈ ((e.run before).engine.perform op).actions ∧
      r.event.kind = .announcement ∧ e.Warrants before r ∧
      (∃ inputs p, op.inputs? = some inputs ∧ r.event.prayer = some p ∧ inputs.Announces p) ∧
      r.due ≤ now := by
  obtain ⟨e, hcreated⟩ : ∃ e, Engine.new {} ⟨0, .utc⟩ = .ok e := ⟨_, rfl⟩
  let inputs := Inputs.daily .maghrib ⟨1080, by decide⟩
  let due : Instant := ⟨63900000, .utc⟩
  let before : List Operation := [.rebuild inputs, .advanceTo due]
  let r : Registration := ⟨2, 2, .announcement .maghrib ⟨0⟩ ⟨1065, by decide⟩, due⟩
  have hstart := (new_eq hcreated).2
  have hfirst : ((e.run before).engine.perform (.next inputs)).actions[0]? =
      some (.handedOff r "announcement-maghrib.mp3" due) := by rw [hstart]; cbv
  have hdone := List.mem_of_getElem? hfirst
  have hturns : e.unroll (before ++ [.next inputs]) = before ++ .next inputs :: [] := by
    simp only [before, List.cons_append, List.nil_append, unroll, turnsOf]
  obtain ⟨-, heach⟩ := handedOff_warranted hcreated (before ++ [.next inputs])
  obtain ⟨-, hwarrants, -, hwanted, hpunctual⟩ := heach before _ [] hturns r _ due hdone
  exact ⟨e, hcreated, before, .next inputs, r, _, due, hdone, rfl, hwarrants, hwanted rfl,
    hpunctual ⟨trivial, trivial, trivial, trivial⟩⟩

end Engine

end Muezzin
