import Muezzin.Proofs.Draining
import Muezzin.Proofs.ScheduleContents
import Muezzin.Proofs.Twins

/-!
# Rebuilds that change nothing

After a rebuild the events of the day wait, and one after the other they fire and are handled. What
is left of them at a later instant of the day is what a rebuild at that instant would let wait. So
if nothing is due and the inputs are the same, one more rebuild only gives new numbers to what is
there, and any number of such rebuilds can be put into a run without being noticed.
-/

namespace Muezzin

/-- Time passes: timers fire, a report is handled, or the clock is set forward. -/
def Operation.Passes (e : Engine) : Operation → Prop
  | .advanceTo _ => True
  | .setClock i => e.clock ≤ i
  | .next _ => e.fires ≠ []
  | _ => False

namespace Engine

/-- Nothing but time passes in the whole run. To handle all messages is to handle them one after
another, so it needs no case of its own. -/
def Passes (e : Engine) : List Operation → Prop
  | [] => True
  | op :: ops => op.Passes e ∧ (e.perform op).engine.Passes ops

/-- Since a rebuild that succeeded only time has passed, but not to the next day, and the inputs
are as they were. Nothing is reported, and nothing is due. -/
structure Lingers (e : Engine) (inputs : Inputs) : Prop where
  since : ∃ (start : Engine) (told : Inputs) (day : DayInputs) (ops : List Operation),
    start.Arises ∧ told.load start.clock.date = .ok day ∧
    (start.rebuild told).engine.Passes ops ∧ e = ((start.rebuild told).engine.run ops).engine ∧
    e.clock.zone = start.clock.zone ∧ e.clock.date = start.clock.date ∧
    inputs.load e.clock.date = .ok day
  successor : e.clock.date.next?.isSome
  unreported : e.fires = []
  ahead : ∀ r ∈ e.registry.live, ¬ r.due ≤ e.clock

/-- The outcome is as if nothing had been done, but for the numbers. -/
structure Undisturbed (e : Engine) (o : Outcome) : Prop where
  events : o.engine.registry.events = e.registry.events
  deadlines : o.engine.timers.pending.map Timer.due = e.timers.pending.map Timer.due
  /-- Nothing is claimed, so nothing is handed off. -/
  silent : ∀ a ∈ o.actions, a.settles? = none
  memory : o.engine.debounce = e.debounce
  size : o.engine.registry.size = e.registry.size
  /-- As many events are scheduled as are cancelled, and as many as there were. -/
  told : ∃ skipped, o.events.filter EngineEvent.endsRebuild =
    [.rebuilt e.registry.size skipped e.registry.size]

/-- The second run is the first one with rebuilds put in that change nothing. -/
inductive Padded : Engine → List Operation → List Operation → Prop
  | done (e : Engine) : Padded e [] []
  | keep {e : Engine} {op : Operation} {ops padded : List Operation}
      (hrest : Padded (e.perform op).engine ops padded) : Padded e (op :: ops) (op :: padded)
  | rebuild {e : Engine} {inputs : Inputs} {ops padded : List Operation}
      (hlingers : e.Lingers inputs) (hrest : Padded (e.rebuild inputs).engine ops padded) :
      Padded e ops (.rebuild inputs :: padded)

end Engine

theorem eq_filter_of_sublist {α : Type} {xs ys : List α} (hsub : xs.Sublist ys)
    (hdistinct : ys.Nodup) {p : α → Bool} (hmem_iff : ∀ a ∈ ys, a ∈ xs ↔ p a) :
    xs = ys.filter p := by
  have hall : xs.filter p = xs :=
    List.filter_eq_self.2 fun a ha => (hmem_iff a (hsub.subset ha)).1 ha
  have hkept : xs.Sublist (ys.filter p) := hall ▸ hsub.filter p
  refine hkept.eq_of_length_le
    (List.subperm_of_subset (hdistinct.filter p) fun a ha => ?_).length_le
  obtain ⟨hlisted, hholds⟩ := List.mem_filter.1 ha
  exact (hmem_iff a hlisted).2 hholds

namespace DailySchedule

/-- Later on the same day the schedule has what is still to come. -/
theorem events_schedule_of_le {day : DayInputs} {now later : Instant} (honward : now ≤ later)
    (hzone : later.zone = now.zone) (hdate : later.date = now.date)
    (hsuccessor : later.date.next?.isSome) (time : TimeOfDay) :
    (day.schedule later time).events =
      (day.schedule now time).events.filter fun ev => later < ev.fireAt now.zone := by
  have hsame : plays day later = plays day now :=
    List.flatMap_congr fun p _ => by simp only [candidates, hzone, hdate]
  have hstays : later < (Event.rollover (rolloverDate now.date) time).fireAt now.zone := by
    have hrolls := lt_rollover hsuccessor time
    rwa [hdate, hzone] at hrolls
  rw [events_schedule, events_schedule, List.filter_append, List.filter_filter, hsame, hzone, hdate,
    List.filter_singleton, decide_eq_true hstays, cond_true]
  congr 1
  apply List.filter_congr
  intro ev _
  by_cases hfuture : later < ev.fireAt now.zone
  · have halso : now < ev.fireAt now.zone := Int.lt_of_le_of_lt honward hfuture
    simp [hfuture, halso]
  · simp [hfuture]

end DailySchedule

namespace Engine

/-- What is left of the engine `b`, in which only time has passed. -/
structure Residue (b e : Engine) : Prop where
  sound : e.Sound
  punctual : e.Punctual
  live : e.registry.live.Sublist b.registry.live
  pending : e.timers.pending.Sublist b.timers.pending
  gone : ∀ g ∈ b.registry.live, g ∉ e.registry.live → g.due ≤ e.clock
  rolloverTime : e.rolloverTime = b.rolloverTime

theorem pending_advanceTo_sublist {α : Type} (t : Timeline α) (target : Instant) :
    (t.advanceTo target).2.pending.Sublist t.pending := by
  refine Timeline.advanceTo_induction (motive := fun _ u => u.pending.Sublist t.pending)
    ?_ (fun _ _ hkept _ => hkept) (List.Sublist.refl _)
  rintro fired u timer v hkept hpopped
  obtain ⟨-, -, rfl⟩ := Timeline.mem_of_popDue? hpopped
  exact List.filter_sublist.trans hkept

theorem clock_le_perform {e : Engine} {op : Operation} (hpasses : op.Passes e) :
    e.clock ≤ (e.perform op).engine.clock := by
  cases op with
  | advanceTo target => exact (e.timers.advanceTo_spec target).1
  | setClock i => exact hpasses
  | next told => exact (clock_afterTurns e told 1).1 ▸ Instant.le_refl _
  | rebuild | clear | request | process => exact absurd hpasses id

theorem clock_le_run {e : Engine} {ops : List Operation} (hpasses : e.Passes ops) :
    e.clock ≤ (e.run ops).engine.clock := by
  induction ops generalizing e with
  | nil => exact Instant.le_refl _
  | cons op ops ih => exact Instant.le_trans (clock_le_perform hpasses.1) (ih hpasses.2)

namespace Residue

variable {b e : Engine}

theorem perform (hresidue : b.Residue e) {op : Operation} (hpasses : op.Passes e)
    (hahead : ∀ g ∈ b.registry.live, g.event.kind = .rollover → ¬ g.due ≤ e.clock) :
    b.Residue (e.perform op).engine := by
  have hsound := hresidue.sound.perform op
  have honward := clock_le_perform hpasses
  have hgone : ∀ g ∈ b.registry.live, g ∉ e.registry.live → g.due ≤ (e.perform op).engine.clock :=
    fun g hg hleft => Instant.le_trans (hresidue.gone g hg hleft) honward
  have hpunctual (hturn : op.IsTurn) (hgoesOn : op.Onward e.clock) :
      (e.perform op).engine.Punctual :=
    (turn_perform hresidue.sound.books hturn).punctual hgoesOn hresidue.punctual
  cases op with
  | advanceTo target =>
    exact ⟨hsound, hpunctual trivial trivial, hresidue.live,
      (pending_advanceTo_sublist e.timers target).trans hresidue.pending, hgone,
      hresidue.rolloverTime⟩
  | setClock i =>
    exact ⟨hsound, hpunctual trivial hpasses, hresidue.live, hresidue.pending, hgone,
      hresidue.rolloverTime⟩
  | next told =>
    obtain ⟨report, fires, hwaiting⟩ := List.exists_cons_of_ne_nil hpasses
    have hfirst := perform_next_of_fires hwaiting told
    have hpunctual := hpunctual trivial trivial
    rcases handleFire_cases { e with fires } told report with ⟨-, houtcome⟩ |
      ⟨r, hlive, rfl, hclaims⟩
    · rw [houtcome] at hfirst
      rw [hfirst] at hsound hgone hpunctual ⊢
      exact ⟨hsound, hpunctual, hresidue.live, hresidue.pending, hgone, hresidue.rolloverTime⟩
    · have hdue : r.due ≤ e.clock := hresidue.punctual r hlive (hwaiting ▸ List.mem_cons_self)
      rcases hclaims with ⟨-, d, a, -, houtcome⟩ | ⟨hrolls, -⟩
      · rw [houtcome] at hfirst
        rw [hfirst] at hsound hgone hpunctual ⊢
        refine ⟨hsound, hpunctual, List.filter_sublist.trans hresidue.live, hresidue.pending,
          fun g hg hleft => ?_, hresidue.rolloverTime⟩
        by_cases hsame : g = r
        · exact hsame ▸ hdue
        · exact hresidue.gone g hg fun hstill => hleft (Registry.mem_remove.2 ⟨hstill, hsame⟩)
      · -- The rollover is not due before the end, and whoever has been reported is due.
        exact absurd hdue (hahead r (hresidue.live.subset hlive) hrolls)
  | rebuild | clear | request | process => exact absurd hpasses id

theorem run (hresidue : b.Residue e) {ops : List Operation} (hpasses : e.Passes ops)
    (hahead : ∀ g ∈ b.registry.live, g.event.kind = .rollover →
      ¬ g.due ≤ (e.run ops).engine.clock) : b.Residue (e.run ops).engine := by
  induction ops generalizing e with
  | nil => exact hresidue
  | cons op ops ih =>
    obtain ⟨hfirst, hrest⟩ := hpasses
    have hearlier := Instant.le_trans (clock_le_perform hfirst) (clock_le_run hrest)
    refine ih (hresidue.perform hfirst fun g hg hrolls hdue => ?_) hrest hahead
    exact hahead g hg hrolls (Instant.le_trans hdue hearlier)

theorem refl_rebuild {start : Engine} (harises : start.Arises) (told : Inputs) :
    (start.rebuild told).engine.Residue (start.rebuild told).engine where
  sound := harises.sound.perform (.rebuild told)
  punctual r _ hreported := by
    rw [(Prod.mk.inj (queues_rebuild start told)).1] at hreported
    cases hreported
  live := .refl _
  pending := .refl _
  gone g hg hleft := absurd hg hleft
  rolloverTime := rfl

/-- While nothing is due, exactly what is still to come is live. -/
theorem live_eq (hresidue : b.Residue e) (hdistinct : b.registry.live.Nodup)
    (hahead : ∀ r ∈ e.registry.live, ¬ r.due ≤ e.clock) :
    e.registry.live = b.registry.live.filter (e.clock < ·.due) := by
  refine eq_filter_of_sublist hresidue.live hdistinct fun g hg => ?_
  rw [decide_eq_true_eq]
  refine ⟨fun hlive => Int.not_le.1 (hahead g hlive), fun hfuture => ?_⟩
  by_contra hleft
  exact Int.not_lt.2 (hresidue.gone g hg hleft) hfuture

theorem pending_eq (hresidue : b.Residue e) (hdistinct : b.timers.pending.Nodup)
    (harmed : b.timers.pending = b.registry.live.map Registration.alarm)
    (hunreported : e.fires = []) :
    e.timers.pending = e.registry.live.map Registration.alarm := by
  have hbooks : e.registry.Consistent e.fires := hresidue.sound.books
  have hlive : (e.registry.live.map Registration.alarm).Sublist b.timers.pending :=
    harmed ▸ hresidue.live.map _
  have hsame (t : Timer Fire) :
      t ∈ e.registry.live.map Registration.alarm ↔ t ∈ e.timers.pending := by
    constructor
    · intro hofLive
      obtain ⟨g, hg, rfl⟩ := List.mem_map.1 hofLive
      exact (hbooks.armed_iff g hg).2 (hunreported ▸ List.not_mem_nil)
    · intro hwaits
      obtain ⟨g, hg, rfl⟩ := hbooks.owned t hwaits
      exact List.mem_map_of_mem hg
  rw [eq_filter_of_sublist hresidue.pending hdistinct (p := (· ∈ e.timers.pending)) (by simp),
    eq_filter_of_sublist hlive hdistinct (p := (· ∈ e.timers.pending)) (by simp [hsame])]

end Residue

/-- What waits is what a rebuild at this instant would let wait. -/
structure Fresh (e : Engine) (inputs : Inputs) : Prop where
  sound : e.Sound
  unreported : e.fires = []
  ahead : ∀ r ∈ e.registry.live, ¬ r.due ≤ e.clock
  armed : e.timers.pending = e.registry.live.map Registration.alarm
  loaded : ∃ day, inputs.load e.clock.date = .ok day ∧
    Registration.AreOf e.registry.live (day.schedule e.clock e.rolloverTime).events e.clock.zone

theorem not_due_of_rollover {start : Engine} {told : Inputs} {day : DayInputs}
    (hloaded : told.load start.clock.date = .ok day) {now : Instant}
    (hzone : now.zone = start.clock.zone) (hdate : now.date = start.clock.date)
    (hsuccessor : now.date.next?.isSome) {g : Registration}
    (hlive : g ∈ (start.rebuild told).engine.registry.live) (hrolls : g.event.kind = .rollover) :
    ¬ g.due ≤ now := by
  intro hdue
  obtain ⟨hlisted, hat⟩ := (schedules_rebuild hloaded).entries.due_eq hlive
  rcases DailySchedule.mem_events_cases _ _ _ _ _ hlisted with ⟨-, hplays, -⟩ | hrollover
  · exact hplays hrolls
  · have hafter := lt_rollover hsuccessor start.rolloverTime
    rw [hdate, hzone, ← hrollover, ← hat] at hafter
    exact Int.not_lt.2 hdue hafter

theorem Lingers.fresh {e : Engine} {inputs : Inputs} (hlingers : e.Lingers inputs) :
    e.Fresh inputs := by
  obtain ⟨start, told, day, ops, harises, hloaded, hpasses, hreached, hzone, hdate, hloadedNow⟩ :=
    hlingers.since
  let b := (start.rebuild told).engine
  have hsound : b.Sound := harises.sound.perform (.rebuild told)
  have hentries := (schedules_rebuild hloaded).entries
  have hclock : b.clock = start.clock := clock_rebuild start told
  have htime : b.rolloverTime = start.rolloverTime := rolloverTime_rebuild start told
  have hrolls : ∀ g ∈ b.registry.live, g.event.kind = .rollover → ¬ g.due ≤ e.clock :=
    fun g hg hrolls => not_due_of_rollover hloaded hzone hdate hlingers.successor hg hrolls
  have hresidue : b.Residue e := by
    rw [hreached] at hrolls ⊢
    exact (Residue.refl_rebuild harises told).run hpasses hrolls
  refine ⟨hresidue.sound, hlingers.unreported, hlingers.ahead, ?_, day, hloadedNow, ?_⟩
  · exact hresidue.pending_eq hsound.books.pending_nodup
      (pending_rebuild (timersOwned_of_books harises.sound.books) told) hlingers.unreported
  · have honward : start.clock ≤ e.clock := by
      rw [hreached, ← hclock]
      exact clock_le_run hpasses
    rw [hresidue.rolloverTime, htime, DailySchedule.events_schedule_of_le honward hzone hdate
      hlingers.successor, hresidue.live_eq hsound.books.distinct hlingers.ahead]
    have honEntries := congrArg (List.filter fun p => decide (e.clock < p.2)) hentries
    rw [List.filter_map, List.filter_map] at honEntries
    rw [hzone]
    exact honEntries

namespace Fresh

variable {e : Engine} {inputs : Inputs} (hfresh : e.Fresh inputs)
include hfresh

theorem claimDue_eq_nil : e.claimDue.1 = [] := by
  apply List.eq_nil_iff_forall_not_mem.2
  intro r hclaimed
  obtain ⟨hlive, hcalled⟩ := mem_claimDue hfresh.sound.books.distinct hclaimed
  rw [hfresh.unreported] at hcalled
  exact hcalled.elim List.not_mem_nil (hfresh.ahead r hlive)

theorem deliverDue_eq : e.deliverDue inputs = ⟨e.claimDue.2, []⟩ := by
  show settleAll inputs e.claimDue.1 e.claimDue.2 = _
  rw [hfresh.claimDue_eq_nil]
  rfl

/-- One more rebuild gives new numbers and changes nothing else. -/
theorem twins_rebuild : e.Twins (e.rebuild inputs).engine := by
  obtain ⟨day, hloaded, hentries⟩ := hfresh.loaded
  have hsound := hfresh.sound.perform (.rebuild inputs)
  have hsame : (e.rebuild inputs).engine.registry.live.map Registration.entry =
      e.registry.live.map Registration.entry :=
    (schedules_rebuild hloaded).entries.trans hentries.symm
  have honEntries (gs : List Registration) : (gs.map Registration.alarm).map Timer.slot =
      (gs.map Registration.entry).map fun p => (p.1.key, p.2) := by
    rw [List.map_map, List.map_map]
    rfl
  have hpending := pending_rebuild (timersOwned_of_books hfresh.sound.books) inputs
  obtain ⟨hfires, hcommands⟩ := Prod.mk.inj (queues_rebuild e inputs)
  refine ⟨⟨hfresh.sound.books, hsound.books, clock_rebuild e inputs, hsame, ?_, ?_⟩,
    audio_rebuild e inputs, rolloverTime_rebuild e inputs, ?_, hcommands⟩
  · show (e.rebuild inputs).engine.timers.pending.map _ = e.timers.pending.map _
    rw [hpending, hfresh.armed, honEntries, honEntries, hsame]
  · rw [hfires, hfresh.unreported]
    rfl
  · rw [debounce_rebuild, hfresh.deliverDue_eq]
    rfl

theorem silent_rebuild : ∀ a ∈ (e.rebuild inputs).actions, a.settles? = none := by
  obtain ⟨later, hactions, hsilent⟩ := actions_rebuild e inputs
  rw [hactions, hfresh.deliverDue_eq]
  exact hsilent

theorem told_rebuild : ∃ skipped, (e.rebuild inputs).events.filter EngineEvent.endsRebuild =
    [.rebuilt e.registry.size skipped e.registry.size] := by
  obtain ⟨day, hloaded, hentries⟩ := hfresh.loaded
  obtain ⟨cancelled, htold⟩ := (schedules_rebuild hloaded).told
  obtain ⟨gs, hof, houtcome⟩ := rebuild_of_load hloaded
  have hsize : gs.length = e.registry.size := by
    have hsame := congrArg List.length (hof.trans hentries.symm)
    rwa [List.length_map, List.length_map] at hsame
  have hlisting : e.claimDue.2.registry.listing.length = e.registry.size := by
    have hall := (perm_claimDue hfresh.sound.books.distinct).length_eq
    rw [hfresh.claimDue_eq_nil] at hall
    exact (Registry.perm_listing _).length_eq.trans hall
  have hdone : .rebuilt gs.length (day.schedule e.clock e.rolloverTime).skipped.length
      e.claimDue.2.registry.listing.length ∈
        (e.rebuild inputs).events.filter EngineEvent.endsRebuild := by
    rw [Outcome.events, houtcome]
    refine List.mem_filter.2 ⟨List.mem_filterMap.2
      ⟨.rebuilt e.clock.date gs.length (day.schedule e.clock e.rolloverTime).skipped.length
        e.claimDue.2.registry.listing.length, by simp, rfl⟩, rfl⟩
  rw [htold, List.mem_singleton] at hdone
  rw [htold, ← hdone, hsize, hlisting]
  exact ⟨_, rfl⟩

theorem undisturbed : e.Undisturbed (e.rebuild inputs) := by
  have htwins := hfresh.twins_rebuild
  refine ⟨Registry.events_of_entries htwins.alike.entries, ?_, hfresh.silent_rebuild,
    htwins.debounce, ?_, hfresh.told_rebuild⟩
  · have hdues := congrArg (List.map Prod.snd) htwins.alike.slots
    rwa [List.map_map, List.map_map] at hdues
  · have hlength := congrArg List.length htwins.alike.entries
    rwa [List.length_map, List.length_map] at hlength

theorem heard_eq_nil : (e.rebuild inputs).heard = [] := by
  rw [heard_rebuild, hfresh.deliverDue_eq]
  rfl

end Fresh

theorem Lingers.arises {e : Engine} {inputs : Inputs} (hlingers : e.Lingers inputs) :
    e.Arises := by
  obtain ⟨start, told, -, ops, harises, -, -, hreached, -⟩ := hlingers.since
  have hbuilt : (start.run [.rebuild told]).engine.Arises := harises.run _
  exact hreached ▸ hbuilt.run ops

theorem Lingers.rebuild {e : Engine} {inputs : Inputs} (hlingers : e.Lingers inputs) :
    (e.rebuild inputs).engine.Lingers inputs := by
  have hfresh := hlingers.fresh
  have hclock := clock_rebuild e inputs
  obtain ⟨day, hloaded, -⟩ := hfresh.loaded
  refine ⟨⟨e, inputs, day, [], hlingers.arises, hloaded, trivial, rfl, ?_, ?_, ?_⟩, ?_, ?_, ?_⟩
  · rw [hclock]
  · rw [hclock]
  · rw [hclock]
    exact hloaded
  · rw [hclock]
    exact hlingers.successor
  · exact (Prod.mk.inj (queues_rebuild e inputs)).1
  · intro r hlive
    have hlisted := List.mem_map_of_mem (f := Registration.entry) hlive
    rw [hfresh.twins_rebuild.alike.entries] at hlisted
    obtain ⟨g, hg, hsame⟩ := List.mem_map.1 hlisted
    rw [hclock, show r.due = g.due from (congrArg Prod.snd hsame).symm]
    exact hlingers.ahead g hg

/-- A run with rebuilds that change nothing is as good as the run without them. -/
theorem Padded.sameHeard {e : Engine} {ops padded : List Operation} (hrest : Padded e ops padded)
    (hsound : e.Sound) : SameHeard (e.run ops) (e.run padded) := by
  induction hrest with
  | done e => exact ⟨.refl hsound, rfl⟩
  | @keep e op ops padded _ ih =>
    have hafter := hsound.perform op
    exact SameHeard.andThen (o := e.perform op) (p := e.perform op) ⟨.refl hafter, rfl⟩ (ih hafter)
  | @rebuild e inputs ops padded hlingers _ ih =>
    have hfresh := hlingers.fresh
    have hafter := hsound.perform (.rebuild inputs)
    have hwithout := hfresh.twins_rebuild.run hsound hafter ops
    have hlater := hwithout.trans (ih hafter)
    refine ⟨hlater.twins, ?_⟩
    rw [run_cons, Outcome.heard_andThen]
    show (e.rebuild inputs).heard ++ _ = _
    rw [hfresh.heard_eq_nil, List.nil_append]
    exact hlater.heard

/-- A rebuild on the day of the last one, with its inputs and with nothing due, changes nothing but
numbers: the same events wait for the same deadlines in the same order, nothing is claimed or
remembered, and as many events are cancelled as are scheduled again. However many such rebuilds are
put into a run, the same is handed off at the same time, and the same waits in the end. -/
theorem idle_rebuilds_invisible :
    (∀ (e : Engine) (inputs : Inputs), e.Lingers inputs →
      e.Undisturbed (e.rebuild inputs) ∧ (e.rebuild inputs).engine.Lingers inputs ∧
      ∀ r : Rehearsal, r.engine = e → r.inputs = inputs → r.rebuild.1 = e.registry.size) ∧
    ∀ (e : Engine) (ops padded : List Operation), e.Arises → Padded e ops padded →
      (e.run padded).heard = (e.run ops).heard ∧
      (e.run padded).engine.registry.events = (e.run ops).engine.registry.events ∧
      (e.run padded).engine.debounce = (e.run ops).engine.debounce := by
  constructor
  · intro e inputs hlingers
    have hundisturbed := hlingers.fresh.undisturbed
    refine ⟨hundisturbed, hlingers.rebuild, ?_⟩
    rintro r rfl rfl
    exact hundisturbed.size
  · intro e ops padded harises hrest
    have hsame := hrest.sameHeard harises.sound
    exact ⟨hsame.heard, Registry.events_of_entries hsame.twins.alike.entries, hsame.twins.debounce⟩

/-- The announcement has been handed off and the azan is a quarter of an hour away when two such
rebuilds come. -/
theorem idle_rebuilds_invisible_between :
    ∃ (e : Engine) (inputs : Inputs), e.Lingers inputs ∧ e.registry.size = 2 ∧
      e.Undisturbed (e.rebuild inputs) ∧
      ∃ (start : Engine) (ops padded : List Operation), start.Arises ∧
        Padded start ops padded ∧ padded.length = ops.length + 2 ∧
        (start.run ops).heard.length = 2 ∧ (start.run padded).heard = (start.run ops).heard := by
  obtain ⟨new, hcreated⟩ : ∃ e, Engine.new {} ⟨0, .utc⟩ = .ok e := ⟨_, rfl⟩
  have harises : new.Arises := .new hcreated
  have hstart := (new_eq hcreated).2
  let inputs := Inputs.daily .maghrib ⟨1080, by decide⟩
  let moved := ((new.rebuild inputs).engine.perform (.advanceTo ⟨63900000, .utc⟩)).engine
  let e := (moved.perform (.next inputs)).engine
  have hreported : moved.fires = [⟨"announcement_maghrib", 2⟩] := by
    simp only [moved, inputs]
    rw [hstart]
    cbv
  have hclock : e.clock = ⟨63900000, .utc⟩ := by
    simp only [e, moved, inputs]
    rw [hstart]
    cbv
  have hfires : e.fires = [] := by
    simp only [e, moved, inputs]
    rw [hstart]
    cbv
  have hdues : e.registry.live.map Registration.due = [⟨64800000, .utc⟩, ⟨86400000, .utc⟩] := by
    simp only [e, moved, inputs]
    rw [hstart]
    cbv
  let passing : List Operation := [.advanceTo ⟨63900000, .utc⟩, .next inputs]
  let later : List Operation := [.advanceTo ⟨64800000, .utc⟩, .next inputs]
  have hheardTwice :
      (new.run (.rebuild inputs :: (passing ++ later))).heard.length = 2 := by
    simp only [passing, later, inputs]
    rw [hstart]
    cbv
  have hnewClock : new.clock = ⟨0, .utc⟩ := congrArg Engine.clock hstart
  obtain ⟨day, hloaded⟩ : ∃ day, ∀ date, inputs.load date = .ok day := ⟨_, fun _ => rfl⟩
  have hhandles : (Operation.next inputs).Passes moved := by
    show moved.fires ≠ []
    rw [hreported]
    exact List.cons_ne_nil _ _
  have hlingers : e.Lingers inputs :=
    { since := by
        refine ⟨new, inputs, day, passing, harises, hloaded _, ⟨trivial, hhandles, trivial⟩, rfl,
          ?_, ?_, hloaded _⟩
        · rw [hclock, hnewClock]
        · rw [hclock, hnewClock]
          decide
      successor := by
        rw [hclock]
        decide
      unreported := hfires
      ahead := by
        intro r hlive
        have hlisted := List.mem_map_of_mem (f := Registration.due) hlive
        rw [hdues, List.mem_cons, List.mem_singleton] at hlisted
        rw [hclock]
        rcases hlisted with hdue | hdue <;> rw [hdue] <;> decide }
  have hsize : e.registry.size = 2 := by
    have hlength := congrArg List.length hdues
    rwa [List.length_map] at hlength
  have hpadded : Padded new (.rebuild inputs :: (passing ++ later))
      (.rebuild inputs :: (passing ++ .rebuild inputs :: .rebuild inputs :: later)) :=
    .keep (.keep (.keep (.rebuild hlingers (.rebuild hlingers.rebuild (.keep (.keep (.done _)))))))
  obtain ⟨hundisturbed, -⟩ := idle_rebuilds_invisible.1 e inputs hlingers
  obtain ⟨hheard, -⟩ := idle_rebuilds_invisible.2 new _ _ harises hpadded
  exact ⟨e, inputs, hlingers, hsize, hundisturbed, new, _, _, harises, hpadded, rfl, hheardTwice,
    hheard⟩

end Engine

end Muezzin
