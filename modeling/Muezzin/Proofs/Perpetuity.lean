import Muezzin.Proofs.Rollovers

/-!
# Does the schedule perpetuate itself?

Every schedule ends with a rollover, and the rollover builds the next schedule. Between operations
exactly one rollover waits, as long as each one that is claimed is allowed to run. It is refused if
the last one ran less than a minute before, and no rebuild replaces what was refused.

Two rollovers in a row have different dates, so the second is due after the midnight that follows
the first run. If it is due a minute after midnight or later, it cannot come too soon. But at
midnight sharp, the first may have been handled so late that it ran in the last minute of its day.
-/

namespace Muezzin

namespace Engine

variable {zone : Zone} {rolloverTime : TimeOfDay} {e : Engine} {history : List Action}

def claimed (e : Engine) (r : Registration) (fires : List Fire) : Engine :=
  { e with registry := e.registry.remove r, fires }

/-- A claimed rollover that may run is remembered before it rebuilds. -/
theorem Rolling.stamp (hrolling : e.Rolling zone rolloverTime history) {r : Registration}
    {fires : List Fire} (hwaiting : e.fires = r.fire :: fires) (hlive : r ∈ e.registry.live)
    (hrolls : r.event.kind = .rollover) (inputs : Inputs)
    (hallowed : (e.claimed r fires).debounce.allows r.key (e.claimed r fires).clock.millis) :
    Orderly zone rolloverTime
      { e.claimed r fires with
        debounce := (e.claimed r fires).debounce.stamp r.key (e.claimed r fires).clock.millis }
      (history ++ [.rolledOver r (e.claimed r fires).clock]) where
  sound := by
    have hclaim : Moment.Step ⟨e, [], history⟩ ⟨e.claimed r fires, [r], history⟩ :=
      .claim hwaiting hlive
    have hsettled : Settlement (e.claimed r fires) inputs r _ _ := .rolledOver hrolls hallowed
    exact (Moment.Step.settle hsettled).sound (hclaim.sound hrolling.sound)
  zone_eq := hrolling.zone_eq
  time_eq := hrolling.time_eq
  due_zone g hg := hrolling.due_zone g (Registry.mem_remove.1 hg).1
  willing := hrolling.willing
  remembers := by
    have hkey : r.key = Event.rolloverKey :=
      (hrolling.sound.books.proper r hlive).key_eq_rolloverKey_iff.2 hrolls
    rw [hkey] at hallowed ⊢
    have hunchanged : (e.claimed r fires).Remembers (runTimes history) :=
      hrolling.remembers.keep (Instant.le_refl _) rfl
    rw [runTimes, List.filterMap_append]
    exact hunchanged.stamp hallowed
  refusals := hrolling.refusals_append fun g elapsed hnew _ => by
    cases List.mem_singleton.1 hnew

/-- A refused rollover came too soon after the one before. -/
theorem Rolling.tooSoon (hrolling : e.Rolling zone rolloverTime history) {r : Registration}
    {fires : List Fire} (hwaiting : e.fires = r.fire :: fires) (hlive : r ∈ e.registry.live)
    (hrolls : r.event.kind = .rollover) {last : Int}
    (hran : e.debounce.lastRun? Event.rolloverKey = some last)
    (hshort : e.clock.millis - last < Debounce.windowMillis) :
    TooSoon history rolloverTime r (e.clock.millis - last) := by
  have hrollover : r ∈ e.registry.rollovers := List.mem_filter.2 ⟨hlive, decide_eq_true hrolls⟩
  have hdue : r.due.millis ≤ e.clock.millis :=
    hrolling.reported r hlive (hwaiting ▸ List.mem_cons_self)
  have hafter : last + 60000 * rolloverTime.minutes < r.due.millis :=
    hrolling.next r hrollover last hran
  have hwindow : e.clock.millis - last < 60000 := hshort
  obtain ⟨now, hrolled, hreading, -⟩ := hrolling.remembers.exists_ran hran
  refine ⟨?_, hshort, now, hrolled, ?_, ?_⟩
  -- With a minute of the day other than the first, the deadline alone is past the window.
  · obtain ⟨minutes, hbound⟩ := rolloverTime
    have hzero : minutes = 0 := by
      dsimp only at hafter
      omega
    subst hzero
    rfl
  · show now.millis < r.due.millis
    omega
  · omega

/-- After a refusal no rollover is left. -/
theorem Rolling.refuse (hrolling : e.Rolling zone rolloverTime history) {r : Registration}
    {fires : List Fire} (hwaiting : e.fires = r.fire :: fires) (hlive : r ∈ e.registry.live)
    (hrolls : r.event.kind = .rollover) (inputs : Inputs)
    (hrefused : ¬ (e.claimed r fires).debounce.allows r.key (e.claimed r fires).clock.millis) :
    ((e.claimed r fires).suppress r).engine.Rolling zone rolloverTime
      (history ++ ((e.claimed r fires).suppress r).actions) := by
  have hclaim : Moment.Step ⟨e, [], history⟩ ⟨e.claimed r fires, [r], history⟩ :=
    .claim hwaiting hlive
  have hsettled : Settlement (e.claimed r fires) inputs r _ _ := .suppressed hrefused
  have hsound := (Moment.Step.settle hsettled).sound (hclaim.sound hrolling.sound)
  have hkey : r.key = Event.rolloverKey :=
    (hrolling.sound.books.proper r hlive).key_eq_rolloverKey_iff.2 hrolls
  have hgone : (e.claimed r fires).registry.rollovers = [] :=
    Registry.rollovers_remove_of_rolls hrolling.sound.books hlive hrolls
  obtain ⟨last, hran, hshort⟩ := Debounce.lastRun?_of_not_allows hrefused
  have hwhy := hrolling.tooSoon hwaiting hlive hrolls (hkey ▸ hran) hshort
  rw [hran] at hsound
  rw [suppress, hran]
  exact
    { sound := hsound
      zone_eq := hrolling.zone_eq
      time_eq := hrolling.time_eq
      due_zone := fun g hg => hrolling.due_zone g (Registry.mem_remove.1 hg).1
      willing := hrolling.willing
      remembers := hrolling.remembers_append (by simp [Action.ranAt?]) (Instant.le_refl _) rfl
      refusals := hrolling.refusals_append fun g elapsed hnew _ => by
        cases List.mem_singleton.1 hnew
        exact hwhy.append _
      reported := fun g hg hwaits =>
        hrolling.reported g (Registry.mem_remove.1 hg).1 (hwaiting ▸ List.mem_cons_of_mem _ hwaits)
      lost := fun _ => hgone
      waits := by
        intro hnotLapsed
        simp [lapsed, List.foldl_append, Action.lapse, hrolls] at hnotLapsed
      next := by
        intro g hg
        have hnone : g ∈ (e.claimed r fires).registry.rollovers := hg
        rw [hgone] at hnone
        cases hnone }

theorem Rolling.handleFire (hrolling : e.Rolling zone rolloverTime history) {report : Fire}
    {fires : List Fire} (hwaiting : e.fires = report :: fires) {inputs : Inputs}
    (hpromised : ∀ a ∈ (({ e with fires } : Engine).handleFire inputs report).actions,
      a.keepsPromise) :
    (({ e with fires } : Engine).handleFire inputs report).engine.Rolling zone rolloverTime
      (history ++ (({ e with fires } : Engine).handleFire inputs report).actions) := by
  have hsound := (leadsTo_handleFire hwaiting inputs history).keep Moment.Step.sound hrolling.sound
  have hreported : ∀ g ∈ e.registry.live, g.fire ∈ fires → g.due ≤ e.clock :=
    fun g hg hwaits => hrolling.reported g hg (hwaiting ▸ List.mem_cons_of_mem _ hwaits)
  rcases handleFire_cases { e with fires } inputs report with
    ⟨-, houtcome⟩ | ⟨r, hlive, rfl, ⟨hplays, d, a, hsettled, houtcome⟩ | ⟨hrolls, houtcome⟩⟩
  · rw [houtcome] at hsound ⊢
    refine hrolling.keep hsound (Instant.le_refl _) hrolling.zone_eq rfl (fun _ hg => hg)
      hrolling.willing rfl rfl hreported ?_
    intro a ha
    rw [List.mem_singleton.1 ha]
    exact ⟨rfl, rfl, fun _ => rfl⟩
  · rw [houtcome] at hsound ⊢
    have hmemory := hsettled.lastRun?_rollover (hrolling.sound.books.proper r hlive)
      fun hrolls => absurd hrolls hplays
    refine hrolling.keep hsound (Instant.le_refl _) hrolling.zone_eq rfl
      (fun g hg => (Registry.mem_remove.1 hg).1) hrolling.willing hmemory
      (e.registry.rollovers_remove_of_plays hplays)
      (fun g hg => hreported g (Registry.mem_remove.1 hg).1) ?_
    intro b hb
    rw [List.mem_singleton.1 hb]
    cases hsettled with
    | suppressed => exact ⟨rfl, rfl, fun before => by simp [Action.lapse, hplays]⟩
    | handedOff | unvoiced | withdrawn | ignored => exact ⟨rfl, rfl, fun _ => rfl⟩
    | superseded hrolls | rolledOver hrolls => exact absurd hrolls hplays
  · rw [houtcome] at hpromised ⊢
    show ((e.claimed r fires).rollOver inputs r).engine.Rolling zone rolloverTime
      (history ++ ((e.claimed r fires).rollOver inputs r).actions)
    by_cases hallowed : (e.claimed r fires).debounce.allows r.key (e.claimed r fires).clock.millis
    · have hstamped := hrolling.stamp hwaiting hlive hrolls inputs hallowed
      have hran := rollOver_of_allows hallowed inputs
      rw [hran]
      have hlater := hstamped.rebuild fun a ha => hpromised a (by
        show a ∈ ((e.claimed r fires).rollOver inputs r).actions
        rw [hran]
        exact List.mem_cons_of_mem _ ha)
      rw [List.append_assoc] at hlater
      exact hlater
    · rw [rollOver_of_not_allows hallowed]
      exact hrolling.refuse hwaiting hlive hrolls inputs hallowed

theorem Rolling.handle (hrolling : e.Rolling zone rolloverTime history) {message : Message}
    {rest : Engine} (hwaiting : e.nextMessage? = some (message, rest)) {inputs : Inputs}
    (hpromised : ∀ a ∈ (rest.handle inputs message).actions, a.keepsPromise) :
    (rest.handle inputs message).engine.Rolling zone rolloverTime
      (history ++ (rest.handle inputs message).actions) := by
  unfold nextMessage? at hwaiting
  split at hwaiting
  · next report fires hfires =>
    cases hwaiting
    exact hrolling.handleFire hfires hpromised
  · next command commands hfires hcommands =>
    cases hwaiting
    cases command with
    | clear => exact absurd (hcommands ▸ List.mem_cons_self) hrolling.willing
    | reschedule reason =>
      have htaken : Moment.Step ⟨e, [], history⟩ ⟨{ e with commands }, [], history⟩ :=
        .takeUp hcommands
      have hnoted : Moment.Step ⟨{ e with commands }, [], history⟩
          ⟨{ e with commands }, [], history ++ [.rescheduling reason]⟩ :=
        .note _ [] history ⟨rfl, rfl, rfl⟩
      have horderly : Orderly zone rolloverTime { e with commands }
          (history ++ [.rescheduling reason]) :=
        { sound := hnoted.sound (htaken.sound hrolling.sound)
          zone_eq := hrolling.zone_eq
          time_eq := hrolling.time_eq
          due_zone := hrolling.due_zone
          willing := fun h => hrolling.willing (hcommands ▸ List.mem_cons_of_mem _ h)
          remembers := hrolling.remembers_append (by simp [Action.ranAt?]) (Instant.le_refl _) rfl
          refusals := hrolling.refusals_append fun r elapsed hnew _ => by
            cases List.mem_singleton.1 hnew }
      have hlater := horderly.rebuild fun a ha => hpromised a (List.mem_cons_of_mem _ ha)
      rw [List.append_assoc] at hlater
      exact hlater
  · cases hwaiting

theorem Rolling.processPending (hrolling : e.Rolling zone rolloverTime history) {inputs : Inputs}
    (hpromised : ∀ a ∈ (e.processPending inputs).2.actions, a.keepsPromise) :
    (e.processPending inputs).2.engine.Rolling zone rolloverTime
      (history ++ (e.processPending inputs).2.actions) := by
  have hgeneral : ∀ history, e.Rolling zone rolloverTime history →
      (∀ a ∈ (e.processPending inputs).2.actions, a.keepsPromise) →
      (e.processPending inputs).2.engine.Rolling zone rolloverTime
        (history ++ (e.processPending inputs).2.actions) := by
    apply processPending_induction (motive := fun e o => ∀ history,
      e.Rolling zone rolloverTime history → (∀ a ∈ o.actions, a.keepsPromise) →
        o.engine.Rolling zone rolloverTime (history ++ o.actions))
    · intro e hidle history hrolling _
      rw [List.append_nil]
      exact hrolling
    · intro e rest message hwaiting hlater history hrolling hpromised
      have hfirst := hrolling.handle hwaiting fun a ha =>
        hpromised a (List.mem_append_left _ ha)
      have hwhole := hlater _ hfirst fun a ha => hpromised a (List.mem_append_right _ ha)
      rw [List.append_assoc] at hwhole
      exact hwhole
  exact hgeneral history hrolling hpromised

end Engine

/-- The operation cancels nothing outright and asks for no such thing, and it neither sets the clock
back nor changes its zone. -/
def Operation.Steady (clock : Instant) : Operation → Prop
  | .clear => False
  | .request command => command ≠ .clear
  | .advanceTo target => target.zone = clock.zone
  | .setClock i => clock ≤ i ∧ i.zone = clock.zone
  | .rebuild _ | .next _ | .process _ => True

def Engine.Steady (e : Engine) : List Operation → Prop
  | [] => True
  | op :: ops => op.Steady e.clock ∧ (e.perform op).engine.Steady ops

namespace Engine

variable {zone : Zone} {rolloverTime : TimeOfDay} {e : Engine} {history : List Action}

theorem Rolling.advanceTo (hrolling : e.Rolling zone rolloverTime history) {target : Instant}
    (hreached : target.zone = e.clock.zone) :
    (e.advanceTo target).2.Rolling zone rolloverTime history := by
  have hsound := (steps_advanceTo e target history).keep Moment.Step.sound hrolling.sound
  obtain ⟨honward, hfired⟩ := e.timers.advanceTo_spec target
  have hpending : ∀ timer ∈ e.timers.pending, timer.due.zone = e.timers.clock.zone := by
    intro timer hwaits
    obtain ⟨g, hg, rfl⟩ := hrolling.sound.books.owned timer hwaits
    exact (hrolling.due_zone g hg).trans hrolling.zone_eq.symm
  have hzone_eq := (Timeline.zone_advanceTo hpending hreached).trans hrolling.zone_eq
  rw [← history.append_nil] at hsound ⊢
  refine hrolling.keep hsound honward hzone_eq rfl (fun _ hg => hg) hrolling.willing rfl rfl ?_
    (List.forall_mem_nil _)
  intro r hr hwaits
  rcases List.mem_append.1 hwaits with hold | hnew
  · exact Instant.le_trans (hrolling.reported r hr hold) honward
  · obtain ⟨timer, htimer, hsame⟩ := List.mem_map.1 hnew
    obtain ⟨hwaited, hdue⟩ := hfired timer htimer
    obtain ⟨g, hg, rfl⟩ := hrolling.sound.books.owned timer hwaited
    have : g = r := hrolling.sound.books.eq_of_fire_eq hg hr hsame
    exact this ▸ hdue

theorem Rolling.perform (hrolling : e.Rolling zone rolloverTime history) {op : Operation}
    (hsteady : op.Steady e.clock) (hpromised : ∀ a ∈ (e.perform op).actions, a.keepsPromise) :
    (e.perform op).engine.Rolling zone rolloverTime (history ++ (e.perform op).actions) := by
  cases op with
  | rebuild inputs => exact hrolling.toOrderly.rebuild hpromised
  | clear => exact absurd hsteady id
  | request command =>
    have hasked : Moment.Step ⟨e, [], history⟩ ⟨e.request command, [], history⟩ := .request ..
    have hsound := hasked.sound hrolling.sound
    rw [← history.append_nil] at hsound
    refine hrolling.keep hsound (Instant.le_refl _) hrolling.zone_eq rfl (fun _ hg => hg) ?_ rfl rfl
      hrolling.reported (List.forall_mem_nil _)
    intro hasksClear
    rcases List.mem_append.1 hasksClear with hold | hnew
    · exact hrolling.willing hold
    · exact hsteady (List.mem_singleton.1 hnew).symm
  | next inputs =>
    revert hpromised
    rw [Engine.perform]
    split
    · next message rest hwaiting => exact hrolling.handle hwaiting
    · intro _
      rw [List.append_nil]
      exact hrolling
  | process inputs => exact hrolling.processPending hpromised
  | advanceTo target =>
    rw [show (e.perform (.advanceTo target)).actions = [] from rfl, List.append_nil]
    exact hrolling.advanceTo hsteady
  | setClock i =>
    obtain ⟨honward, hsame⟩ := hsteady
    have hset : Moment.Step ⟨e, [], history⟩ ⟨e.setClock i, [], history⟩ := .setClock ..
    have hsound := hset.sound hrolling.sound
    rw [← history.append_nil] at hsound
    refine hrolling.keep hsound honward (hsame.trans hrolling.zone_eq) rfl (fun _ hg => hg)
      hrolling.willing rfl rfl ?_ (List.forall_mem_nil _)
    exact fun r hr hwaits => Instant.le_trans (hrolling.reported r hr hwaits) honward

theorem Rolling.run (hrolling : e.Rolling zone rolloverTime history) {ops : List Operation}
    (hsteady : e.Steady ops) (hpromised : ∀ a ∈ (e.run ops).actions, a.keepsPromise) :
    (e.run ops).engine.Rolling zone rolloverTime (history ++ (e.run ops).actions) := by
  induction ops generalizing e history with
  | nil =>
    rw [Engine.run, List.append_nil]
    exact hrolling
  | cons op ops ih =>
    obtain ⟨hfirst, hrest⟩ := hsteady
    have hafter := hrolling.perform hfirst fun a ha => hpromised a (List.mem_append_left _ ha)
    have hwhole := ih hafter hrest fun a ha => hpromised a (List.mem_append_right _ ha)
    rw [List.append_assoc] at hwhole
    exact hwhole

theorem rolling_new {config : SchedulerConfig} {clock : Instant}
    (hcreated : Engine.new config clock = .ok e) :
    e.Rolling clock.zone config.engine.rolloverTime [] := by
  have hsound := sound_new hcreated
  obtain ⟨-, rfl⟩ := new_eq hcreated
  exact
    { sound := hsound
      zone_eq := rfl
      time_eq := rfl
      due_zone := by simp
      willing := by simp
      remembers := ⟨rfl, by simp [runTimes], List.Pairwise.nil⟩
      refusals := by simp
      reported := by simp
      lost := fun _ => rfl
      waits := by
        intro _ hstarted
        cases hstarted
      next := by
        intro r hr
        cases hr }

/-- Either the timer of a registration waits or its report does. -/
def Awaits (e : Engine) (r : Registration) : Prop :=
  (r.alarm ∈ e.timers.pending ∧ r.fire ∉ e.fires) ∨
    (r.alarm ∉ e.timers.pending ∧ r.fire ∈ e.fires)

/-- In a steady run that keeps the promises, one rollover waits if none was refused since the last
rebuild. Otherwise there is none, and the refused one came too soon. Those that ran are a minute
apart. -/
theorem rollover_awaited_iff {config : SchedulerConfig} {clock : Instant}
    (hcreated : Engine.new config clock = .ok e) {ops : List Operation} (hsteady : e.Steady ops)
    (hpromised : ∀ a ∈ (e.run ops).actions, a.keepsPromise)
    (hbegun : started (e.run ops).actions = true) :
    ((∃ r, (e.run ops).engine.registry.rollovers = [r] ∧ (e.run ops).engine.Awaits r) ↔
      lapsed (e.run ops).actions = false) ∧
    (lapsed (e.run ops).actions = true → (e.run ops).engine.registry.rollovers = [] ∧
      ∃ r elapsed, .suppressed r elapsed ∈ (e.run ops).actions ∧ r.event.kind = .rollover ∧
        TooSoon (e.run ops).actions config.engine.rolloverTime r elapsed) ∧
    Apart (runTimes (e.run ops).actions) := by
  have hrolling := (rolling_new hcreated).run hsteady hpromised
  rw [List.nil_append] at hrolling
  refine ⟨⟨?_, ?_⟩, ?_, hrolling.remembers.apart⟩
  · rintro ⟨r, honly, -⟩
    by_contra hrefused
    rw [Bool.not_eq_false] at hrefused
    rw [hrolling.lost hrefused] at honly
    cases honly
  · intro hnotLapsed
    obtain ⟨r, honly⟩ := hrolling.waits hnotLapsed hbegun
    refine ⟨r, honly, ?_⟩
    have hrollover : r ∈ (e.run ops).engine.registry.rollovers := honly ▸ List.mem_cons_self
    have harmed := hrolling.sound.books.armed_iff r (List.mem_filter.1 hrollover).1
    by_cases hreported : r.fire ∈ (e.run ops).engine.fires
    · exact .inr ⟨fun hwaits => harmed.1 hwaits hreported, hreported⟩
    · exact .inl ⟨harmed.2 hreported, hreported⟩
  · intro hlapsed
    obtain ⟨r, elapsed, hrefused, hrolls⟩ := exists_of_lapsed hlapsed
    exact ⟨hrolling.lost hlapsed, r, elapsed, hrefused, hrolls,
      hrolling.refusals r elapsed hrefused hrolls⟩

/-- When the first rollover runs at midnight, the next one waits. -/
theorem rollover_awaited_next_day :
    ∃ e, Engine.new {} ⟨43200000, .utc⟩ = .ok e ∧ ∃ ops, e.Steady ops ∧
      ∃ r, (e.run ops).engine.registry.rollovers = [r] ∧ (e.run ops).engine.Awaits r := by
  obtain ⟨e, hcreated⟩ : ∃ e, Engine.new {} ⟨43200000, .utc⟩ = .ok e := ⟨_, rfl⟩
  let day : Inputs := .daily .maghrib ⟨1080, by decide⟩
  let ops : List Operation := [.rebuild day, .advanceTo ⟨86400000, .utc⟩, .process day]
  have hstart := (new_eq hcreated).2
  have hsteady : e.Steady ops := by
    rw [hstart]
    refine ⟨trivial, ?_, trivial, trivial⟩
    cbv
  have hpromised : (e.run ops).actions.all Action.keepsPromise = true := by rw [hstart]; cbv
  have hbegun : started (e.run ops).actions = true := by rw [hstart]; cbv
  have hnotLapsed : lapsed (e.run ops).actions = false := by rw [hstart]; cbv
  obtain ⟨hawaited, -⟩ := rollover_awaited_iff hcreated hsteady
    (List.all_eq_true.1 hpromised) hbegun
  exact ⟨e, hcreated, ops, hsteady, hawaited.2 hnotLapsed⟩

/-- When a refused rollover is all that an engine has, nothing is left of it. -/
theorem process_of_refused {r : Registration} (hlive : e.registry.live = [r])
    (hwaiting : e.fires = [r.fire]) (hidle : e.commands = []) (hrolls : r.event.kind = .rollover)
    (hrefused : ¬ e.debounce.allows r.key e.clock.millis) (inputs : Inputs) :
    e.perform (.process inputs) = (e.claimed r []).suppress r := by
  have hnext : e.nextMessage? = some (.fire r.fire, { e with fires := [] }) := by
    rw [nextMessage?, hwaiting]
  have hhandled : ({ e with fires := [] } : Engine).handle inputs (.fire r.fire) =
      (e.claimed r []).suppress r := by
    rcases handleFire_cases { e with fires := [] } inputs r.fire with
      ⟨hstale, -⟩ | ⟨g, hg, -, ⟨hplays, -⟩ | ⟨-, houtcome⟩⟩
    · exact absurd rfl (hstale r (hlive ▸ List.mem_cons_self))
    · have hsame : g = r := List.mem_singleton.1 (hlive ▸ hg)
      exact absurd hrolls (hsame ▸ hplays)
    · have hsame : g = r := List.mem_singleton.1 (hlive ▸ hg)
      subst hsame
      have hrefused' : ¬ (e.claimed g []).debounce.allows g.key (e.claimed g []).clock.millis :=
        hrefused
      exact houtcome.trans (rollOver_of_not_allows hrefused' inputs)
  have hdone : ((e.claimed r []).suppress r).engine.nextMessage? = none := by
    simp [nextMessage?, suppress, claimed, hidle]
  rw [perform, processPending_some hnext, hhandled, Outcome.andThen, processPending_none hdone]
  simp

/-- The rollover of a day without prayers runs half a minute before midnight, the next one is
refused at midnight, and nothing is left that could build another day. -/
theorem rollover_refused_at_midnight :
    ∃ e, Engine.new {} ⟨43200000, .utc⟩ = .ok e ∧ ∃ ops, e.Steady ops ∧
      (∀ a ∈ (e.run ops).actions, a.keepsPromise) ∧ started (e.run ops).actions = true ∧
      (e.run ops).engine.registry.live = [] ∧ (e.run ops).engine.timers.pending = [] ∧
      (e.run ops).engine.queues = ([], []) := by
  obtain ⟨e, hcreated⟩ : ∃ e, Engine.new {} ⟨43200000, .utc⟩ = .ok e := ⟨_, rfl⟩
  let quiet : Inputs :=
    .steady ⟨fun _ => .ok (some (.new .empty .empty)), fun _ => []⟩ ⟨.ok (some .empty), .ok {}⟩
  let ops : List Operation :=
    [.rebuild quiet, .advanceTo ⟨172770000, .utc⟩, .process quiet, .advanceTo ⟨172800000, .utc⟩]
  let r : Registration := ⟨2, 2, .rollover ⟨2⟩ .midnight, ⟨172800000, .utc⟩⟩
  have hstart := (new_eq hcreated).2
  have hlive : (e.run ops).engine.registry.live = [r] := by rw [hstart]; cbv
  have hwaiting : (e.run ops).engine.queues = ([r.fire], []) := by rw [hstart]; cbv
  have hran : (e.run ops).engine.debounce.lastRun? r.key = some 172770000 := by rw [hstart]; cbv
  have hnow : (e.run ops).engine.clock.millis = 172800000 := by rw [hstart]; cbv
  have hpromised : (e.run ops).actions.all Action.keepsPromise = true := by rw [hstart]; cbv
  have hbegun : started (e.run ops).actions = true := by rw [hstart]; cbv
  have hpending : (e.run ops).engine.timers.pending = [] := by rw [hstart]; cbv
  have hrefused : ¬ (e.run ops).engine.debounce.allows r.key (e.run ops).engine.clock.millis := by
    rw [Debounce.allows, hran, hnow]
    decide
  have hlast := process_of_refused hlive (Prod.mk.inj hwaiting).1 (Prod.mk.inj hwaiting).2
    rfl hrefused quiet
  have hsteady : e.Steady (ops ++ [.process quiet]) := by
    rw [hstart]
    refine ⟨trivial, ?_, trivial, ?_, trivial, trivial⟩
    · cbv
    · cbv
  have hwhole : e.run (ops ++ [.process quiet]) =
      (e.run ops).andThen fun f => (f.claimed r []).suppress r := by
    rw [run_append, Outcome.andThen, run_cons, Outcome.andThen, hlast]
    rfl
  refine ⟨e, hcreated, ops ++ [.process quiet], hsteady, ?_, ?_, ?_, ?_, ?_⟩
  · rw [hwhole]
    intro a ha
    rcases List.mem_append.1 ha with ha | ha
    · exact List.all_eq_true.1 hpromised a ha
    · rw [List.mem_singleton.1 ha]
      rfl
  · rw [hwhole, started, Outcome.actions_andThen, List.any_append, ← started, hbegun]
    rfl
  · rw [hwhole]
    show (e.run ops).engine.registry.live.filter (· != r) = []
    rw [hlive]
    simp
  · rw [hwhole]
    exact hpending
  · rw [hwhole]
    exact Prod.ext rfl (Prod.mk.inj hwaiting).2

end Engine

end Muezzin
