import Muezzin.Proofs.Confluence
import Muezzin.Proofs.Rounds

/-!
# What a rebuild makes of the old schedule

When a rebuild comes, a live registration may have been reported and not handled yet, it may be due
by the clock alone, or it may be still to come. A clock that was set back makes the first possible
without the second. The rebuild claims the first two kinds, plays them in the order of their times,
and cancels the third kind only then; reports that match nothing make no difference. All of that
happens before the inputs are loaded, so it is the same whether the rebuild succeeds or fails. What
waits afterwards has nothing to do with any of it: it is the schedule of these inputs, or nothing.
-/

namespace Muezzin

namespace Engine

def reported (e : Engine) : List Registration :=
  e.registry.live.filter (·.fire ∈ e.fires)

def overdue (e : Engine) : List Registration :=
  e.registry.live.filter fun r => r.fire ∉ e.fires ∧ r.due ≤ e.clock

def early (e : Engine) : List Registration :=
  e.registry.live.filter fun r => r.fire ∉ e.fires ∧ ¬ r.due ≤ e.clock

/-- The reports that match a live registration. -/
def matching (e : Engine) : List Fire :=
  e.fires.filter fun report => ∃ r ∈ e.registry.live, r.fire = report

/-- The claims `due` are dealt with in the order of their times: a rollover is dropped, and anything
else is notified and comes to what it would have come to alone. Then `gone` is cancelled, and then
the inputs are loaded, after which `later` claims and cancels nothing. -/
structure Sweeps (e : Engine) (inputs : Inputs) (due gone : List Registration)
    (later : List Action) : Prop where
  due_perm : due.Perm (e.reported ++ e.overdue)
  gone_perm : gone.Perm e.early
  ordered : due.Pairwise fun r g => r.event.fireAt e.clock.zone ≤ g.event.fireAt e.clock.zone
  actions : (e.rebuild inputs).actions =
    (due.flatMap fun r =>
      if r.event.kind = .rollover then [.superseded r] else (e.notify inputs r).actions) ++
      .cancelled gone :: .loading e.clock.date :: later
  silent : ∀ a ∈ later, a.settles? = none ∧ a.cancels = []
  remembered : ∀ r ∈ due, r.event.kind ≠ .rollover →
    (e.rebuild inputs).engine.debounce.lastRun? r.key =
      (e.notify inputs r).engine.debounce.lastRun? r.key
  untouched : ∀ key, (∀ r ∈ due, r.event.kind ≠ .rollover → r.key ≠ key) →
    (e.rebuild inputs).engine.debounce.lastRun? key = e.debounce.lastRun? key

variable {e : Engine} {inputs : Inputs}

theorem perm_reported_overdue_early (e : Engine) :
    (e.reported ++ e.overdue ++ e.early).Perm e.registry.live := by
  let unreported := e.registry.live.filter fun r => !decide (r.fire ∈ e.fires)
  have hoverdue : e.overdue = unreported.filter fun r => r.due ≤ e.clock := by
    rw [List.filter_filter]
    exact List.filter_congr fun r _ => by simp [and_comm]
  have hearly : e.early = unreported.filter fun r => !decide (r.due ≤ e.clock) := by
    rw [List.filter_filter]
    exact List.filter_congr fun r _ => by simp [and_comm]
  have hrest : (e.overdue ++ e.early).Perm unreported := by
    rw [hoverdue, hearly]
    exact List.filter_append_perm _ _
  rw [List.append_assoc]
  exact (hrest.append_left _).trans (List.filter_append_perm _ _)

/-- Claiming reports takes out exactly those who have been reported. -/
theorem live_claimFires (fires : List Fire) {registry : Registry}
    (hdistinct : ∀ g ∈ registry.live, ∀ h ∈ registry.live, g.fire = h.fire → g = h) :
    (claimFires fires registry).2.live = registry.live.filter (·.fire ∉ fires) := by
  induction fires generalizing registry with
  | nil => simp [claimFires]
  | cons report fires ih =>
    rcases registry.takeFired_cases report with ⟨g, hlive, rfl, htaken⟩ | ⟨hstale, htaken⟩
    · have hleft : ∀ h ∈ (registry.remove g).live, h ∈ registry.live :=
        fun h hh => (Registry.mem_remove.1 hh).1
      rw [claimFires, htaken]
      show (claimFires fires (registry.remove g)).2.live = _
      rw [ih fun h hh k hk => hdistinct h (hleft h hh) k (hleft k hk)]
      show (registry.live.filter (· != g)).filter _ = _
      rw [List.filter_filter]
      apply List.filter_congr
      intro h hh
      have hsame : h.fire = g.fire ↔ h = g :=
        ⟨hdistinct h hh g hlive, congrArg Registration.fire⟩
      simp [hsame, bne, beq_eq_decide, Bool.and_comm]
    · rw [claimFires, htaken]
      show (claimFires fires registry).2.live = _
      rw [ih hdistinct]
      apply List.filter_congr
      intro h hh
      simp [hstale h hh]

theorem claimFires_filter (fires : List Fire) {registry : Registry} {live : List Registration}
    (hleft : ∀ r ∈ registry.live, r ∈ live) :
    claimFires (fires.filter fun report => ∃ r ∈ live, r.fire = report) registry =
      claimFires fires registry := by
  induction fires generalizing registry with
  | nil => rfl
  | cons report fires ih =>
    rcases registry.takeFired_cases report with ⟨g, hg, hsame, htaken⟩ | ⟨hstale, htaken⟩
    · have hkept : ∃ r ∈ live, r.fire = report := ⟨g, hleft g hg, hsame⟩
      rw [List.filter_cons_of_pos (by simpa using hkept), claimFires, claimFires, htaken]
      dsimp only
      rw [ih fun r hr => hleft r (Registry.mem_remove.1 hr).1]
    · by_cases hlive : ∃ r ∈ live, r.fire = report
      · rw [List.filter_cons_of_pos (by simpa using hlive), claimFires, claimFires, htaken]
        dsimp only
        rw [ih hleft]
      · rw [List.filter_cons_of_neg (by simpa using hlive), ih hleft, claimFires, htaken]
        rfl

theorem rebuild_matching (e : Engine) (inputs : Inputs) :
    ({ e with fires := e.matching } : Engine).rebuild inputs = e.rebuild inputs := by
  have hclaims : ({ e with fires := e.matching } : Engine).claimDue = e.claimDue := by
    simp only [claimDue, matching, claimFires_filter e.fires fun _ => id]
    rfl
  rw [rebuild, rebuild, deliverDue, deliverDue, hclaims]

section Books

variable {reports : List Fire} (hbooks : e.registry.Consistent reports)
include hbooks

theorem live_claimDue : e.claimDue.2.registry.live = e.early := by
  have hleft := live_claimFires e.fires fun g hg h hh => hbooks.eq_of_fire_eq hg hh
  show ((claimFires e.fires e.registry).2.takeDue e.clock).2.live = _
  rw [Registry.live_takeDue, hleft, List.filter_filter]
  exact List.filter_congr fun r _ => by simp [and_comm]

theorem perm_claimDue_reported_overdue : e.claimDue.1.Perm (e.reported ++ e.overdue) := by
  have hwhole := (perm_claimDue hbooks.distinct).trans (perm_reported_overdue_early e).symm
  rw [live_claimDue hbooks] at hwhole
  exact (List.perm_append_right_iff _).1 hwhole

end Books

theorem ordered_claimDue (e : Engine) :
    e.claimDue.1.Pairwise fun r g =>
      r.event.fireAt e.clock.zone ≤ g.event.fireAt e.clock.zone :=
  Instant.pairwise_sortBy (fun r : Registration => r.event.fireAt e.clock.zone) _

/-- After its claims a rebuild cancels once, loads once, and ends with what it tells of that. -/
theorem actions_rebuild_cancelled (e : Engine) (inputs : Inputs) :
    ∃ later, (e.rebuild inputs).actions = (e.deliverDue inputs).actions ++
        .cancelled e.claimDue.2.registry.listing :: .loading e.clock.date :: later ∧
      ∀ a ∈ later, a.settles? = none ∧ a.cancels = [] := by
  have hmisread {a : Action} (h : a ∈ (inputs.complaints e.clock.date).map Action.misread) :
      a.settles? = none ∧ a.cancels = [] := by
    obtain ⟨complaint, -, rfl⟩ := List.mem_map.1 h
    exact ⟨rfl, rfl⟩
  cases hloaded : inputs.load e.clock.date with
  | ok day =>
    obtain ⟨gs, -, houtcome⟩ := rebuild_of_load hloaded
    rw [houtcome, partings, List.append_assoc]
    refine ⟨_, rfl, fun a h => ?_⟩
    rcases List.mem_append.1 h with h | h
    · exact hmisread h
    · simp only [List.mem_append, DayInputs.remarks, List.mem_map, List.mem_singleton] at h
      rcases h with ((⟨p, -, rfl⟩ | ⟨ev, -, rfl⟩) | ⟨g, -, rfl⟩) | rfl
      all_goals exact ⟨rfl, rfl⟩
  | error reason =>
    rw [rebuild_of_error hloaded, partings, List.append_assoc]
    refine ⟨_, rfl, fun a h => ?_⟩
    rcases List.mem_append.1 h with h | h
    · exact hmisread h
    · rw [List.mem_singleton.1 h]
      exact ⟨rfl, rfl⟩

theorem told_rebuild (e : Engine) (inputs : Inputs) :
    (∀ day, inputs.load e.clock.date = .ok day → ∃ scheduled skipped,
      (e.rebuild inputs).events.filter EngineEvent.endsRebuild =
        [.rebuilt scheduled skipped e.claimDue.2.registry.live.length]) ∧
    ∀ reason, inputs.load e.clock.date = .error reason →
      (e.rebuild inputs).events.filter EngineEvent.endsRebuild = [.rebuildFailed reason] := by
  have hsilent :
      ((e.partings inputs).filterMap Action.event?).filter EngineEvent.endsRebuild = [] :=
    List.filter_eq_nil_iff.2 fun ev htold => by simp [(told_partings htold).1]
  have hcancelled : e.claimDue.2.registry.listing.length = e.claimDue.2.registry.live.length :=
    (Registry.perm_listing _).length_eq
  constructor
  · intro day hloaded
    obtain ⟨gs, -, houtcome⟩ := rebuild_of_load hloaded
    refine ⟨gs.length, (day.schedule e.clock e.rolloverTime).skipped.length, ?_⟩
    rw [Outcome.events, houtcome]
    simp only [List.filterMap_append, List.filter_append, hsilent, Inputs.filterMap_remarks,
      DayInputs.filterMap_remarks, Action.filterMap_armed, hcancelled]
    simp [Action.event?, EngineEvent.endsRebuild, List.filter_map, Function.comp_def]
  · intro reason hmissing
    rw [Outcome.events, rebuild_of_error hmissing]
    simp only [List.filterMap_append, List.filter_append, hsilent, Inputs.filterMap_remarks]
    rfl

theorem sweeps_rebuild (hbooks : e.registry.Consistent e.fires) (inputs : Inputs) :
    ∃ due gone later, e.Sweeps inputs due gone later := by
  obtain ⟨later, hactions, hsilent⟩ := actions_rebuild_cancelled e inputs
  have halone (r : Registration) :
      SameEnd (settleDue inputs r e) (settleDue inputs r e.claimDue.2) r.key :=
    sameEnd_settleDue inputs (sameOutlook_claimDue e r.key)
  refine ⟨e.claimDue.1, e.claimDue.2.registry.listing, later, ?_⟩
  exact
    { due_perm := perm_claimDue_reported_overdue hbooks
      gone_perm := by
        rw [← live_claimDue hbooks]
        exact Registry.perm_listing _
      ordered := ordered_claimDue e
      actions := by
        rw [hactions, deliverDue, actions_settleAll inputs (nodup_map_key_claimDue hbooks)]
        congr 1
        apply List.flatMap_congr
        intro r _
        rw [(halone r).1, settleDue]
        split <;> rfl
      silent := hsilent
      remembered := by
        intro r hclaimed hplays
        rw [lastRun?_rebuild_of_mem hbooks inputs hclaimed, (halone r).2, settleDue, if_neg hplays]
      untouched := by
        intro key hfree
        by_cases hclaimed : key ∈ e.claimDue.1.map Registration.key
        · obtain ⟨r, hr, rfl⟩ := List.mem_map.1 hclaimed
          have hrolls : r.event.kind = .rollover := by
            by_contra hplays
            exact hfree r hr hplays rfl
          rw [lastRun?_rebuild_of_mem hbooks inputs hr, (halone r).2, settleDue_of_rolls hrolls]
        · exact lastRun?_rebuild_of_notMem hclaimed inputs }

/-- A rebuild passes on every azan and every announcement that has been reported or is due, once and
in the order of their times, before it cancels the rest and loads its inputs; it tells how much it
cancelled if it succeeds. Reports that match nothing are consumed without effect. -/
theorem rebuild_loses_nothing {e : Engine} (harises : e.Arises) (inputs : Inputs) :
    (e.reported ++ e.overdue ++ e.early).Perm e.registry.live ∧
    (e.reported ++ e.overdue ++ e.early).Nodup ∧
    (∃ due gone later, e.Sweeps inputs due gone later) ∧
    (∀ day, inputs.load e.clock.date = .ok day → ∃ scheduled skipped,
      (e.rebuild inputs).events.filter EngineEvent.endsRebuild =
        [.rebuilt scheduled skipped e.early.length]) ∧
    (∀ reason, inputs.load e.clock.date = .error reason →
      (e.rebuild inputs).events.filter EngineEvent.endsRebuild = [.rebuildFailed reason]) ∧
    (e.rebuild inputs).engine.fires = [] ∧
    ({ e with fires := e.matching } : Engine).rebuild inputs = e.rebuild inputs := by
  have hbooks : e.registry.Consistent e.fires := harises.sound.books
  have htold := told_rebuild e inputs
  rw [live_claimDue hbooks] at htold
  have hwhole := perm_reported_overdue_early e
  exact ⟨hwhole, hwhole.nodup_iff.2 hbooks.distinct, sweeps_rebuild hbooks inputs, htold.1, htold.2,
    congrArg Prod.fst (queues_rebuild _ inputs), rebuild_matching _ inputs⟩

/-- The announcement has been reported, its azan is due by the clock alone, and the rollover is
still to come. -/
theorem rebuild_loses_nothing_overdue :
    ∃ e : Engine, e.Arises ∧
      e.reported.map Registration.key = ["announcement_maghrib"] ∧
      e.overdue.map Registration.key = ["azan_maghrib"] ∧
      e.early.map Registration.key = ["next_day_update"] ∧
      ∃ due gone later, e.Sweeps (.daily .isha ⟨1200, by decide⟩) due gone later := by
  obtain ⟨new, hcreated⟩ : ∃ e, Engine.new {} ⟨0, .utc⟩ = .ok e := ⟨_, rfl⟩
  let e := (new.run [.rebuild (.daily .maghrib ⟨1080, by decide⟩),
    .advanceTo ⟨63900000, .utc⟩, .setClock ⟨64800000, .utc⟩]).engine
  have harises : e.Arises := .run (.new hcreated) _
  obtain ⟨-, rfl⟩ := new_eq hcreated
  exact ⟨e, harises, by cbv, by cbv, by cbv, (rebuild_loses_nothing harises _).2.2.1⟩

/-- Whatever an engine was like, after a rebuild exactly the new schedule waits, or nothing if an
input is missing. -/
theorem rebuild_replaces (e : Engine) (inputs : Inputs) :
    (e.rebuild inputs).engine.fires = [] ∧
    (∀ times settings flags, inputs.times e.clock.date = .ok (some times) →
      inputs.settings = .ok (some settings) → inputs.flags = .ok flags →
      (e.rebuild inputs).Schedules
        (DailySchedule.build times settings flags e.clock e.rolloverTime) e.clock.zone) ∧
    ((¬ ∃ times settings flags, inputs.times e.clock.date = .ok (some times) ∧
      inputs.settings = .ok (some settings) ∧ inputs.flags = .ok flags) →
      (e.rebuild inputs).Empties) ∧
    (e.Arises → e.TimersOwned) ∧
    (e.TimersOwned → (e.rebuild inputs).engine.timers.pending =
      (e.rebuild inputs).engine.registry.live.map Registration.alarm) ∧
    (∀ r : Rehearsal, r.engine = e → r.inputs = inputs →
      r.rebuild.1 = (e.rebuild inputs).engine.registry.size) ∧
    ∀ f : Engine, f.clock = e.clock → f.rolloverTime = e.rolloverTime →
      (f.rebuild inputs).engine.registry.live.map (fun r => (r.event, r.due)) =
        (e.rebuild inputs).engine.registry.live.map (fun r => (r.event, r.due)) := by
  refine ⟨?_, ?_, ?_, fun harises => timersOwned_of_books harises.sound.books,
    fun howned => pending_rebuild howned inputs, ?_, ?_⟩
  · exact congrArg Prod.fst (queues_rebuild e inputs)
  · intro times settings flags htimes hsettings hflags
    have hloaded : inputs.load e.clock.date = .ok ⟨times, settings, flags⟩ :=
      Inputs.load_eq_ok_iff.2 ⟨htimes, hsettings, hflags⟩
    exact schedules_rebuild hloaded
  · intro hmissing
    cases hloaded : inputs.load e.clock.date with
    | ok day => exact absurd ⟨_, _, _, Inputs.load_eq_ok_iff.1 hloaded⟩ hmissing
    | error reason => exact empties_rebuild hloaded
  · rintro r rfl rfl
    rfl
  · exact fun f hclock hrolloverTime => entries_rebuild hclock hrolloverTime inputs

/-- Two reports wait when one schedule gives way to another, or to nothing. -/
theorem rebuild_replaces_reported :
    ∃ e : Engine, e.fires.length = 2 ∧ e.registry.size = 3 ∧ e.Arises ∧
      (e.rebuild (.daily .isha ⟨1200, by decide⟩)).engine.registry.size = 3 ∧
      (e.rebuild (.daily .isha ⟨1200, by decide⟩)).engine.timers.pending.length = 3 ∧
      (e.rebuild { Inputs.daily .isha ⟨1200, by decide⟩ with settings := .ok none }).Empties := by
  obtain ⟨new, hcreated⟩ : ∃ e, Engine.new {} ⟨0, .utc⟩ = .ok e := ⟨_, rfl⟩
  let e := (new.run [.rebuild (.daily .maghrib ⟨1080, by decide⟩),
    .advanceTo ⟨64800000, .utc⟩]).engine
  have harises : e.Arises := .run (.new hcreated) _
  obtain ⟨-, rfl⟩ := new_eq hcreated
  obtain ⟨-, hschedules, -, howned, hpending, -⟩ :=
    rebuild_replaces e (.daily .isha ⟨1200, by decide⟩)
  obtain ⟨-, -, hempties, -⟩ :=
    rebuild_replaces e { Inputs.daily .isha ⟨1200, by decide⟩ with settings := .ok none }
  have hsize := (hschedules _ _ _ rfl rfl rfl).size
  have hthree : (e.rebuild (.daily .isha ⟨1200, by decide⟩)).engine.registry.size = 3 := by
    rw [hsize]
    cbv
  refine ⟨e, by cbv, by cbv, harises, hthree, ?_, hempties ?_⟩
  · rw [hpending (howned harises), List.length_map]
    exact hthree
  · rintro ⟨times, settings, flags, -, hmissing, -⟩
    cases hmissing

end Engine

end Muezzin
