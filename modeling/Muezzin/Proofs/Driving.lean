import Muezzin.Proofs.Backlog
import Muezzin.Proofs.Draining
import Muezzin.Proofs.HandDriving
import Muezzin.Proofs.Rounds
import Muezzin.Proofs.ScheduleContents

/-!
# Driving comes to an end

Whoever drives an engine by hand moves it from deadline to deadline and handles what fires. A
rebuild arms timers anew, so what waits does not get less by itself. But all of it is due after the
clock, the rollover even on the next date, and only a rollover makes a round rebuild, the requests
apart that were there before the first round. So every date up to the end pays once for the eleven
timers that a schedule may have, whatever the sources answer and whatever fails.
-/

namespace Muezzin

/-- The rollover of a schedule is due on the next date. -/
theorem date_lt_rollover {now : Instant} (hsuccessor : now.date.next?.isSome) (time : TimeOfDay) :
    now.date <
      ((Event.rollover (DailySchedule.rolloverDate now.date) time).fireAt now.zone).date := by
  obtain ⟨date, hnext⟩ := Option.isSome_iff_exists.1 hsuccessor
  rw [DailySchedule.rolloverDate_of_next hnext]
  show now.date < (time.on date now.zone).date
  rw [TimeOfDay.date_on]
  exact Date.lt_of_next? hnext

namespace Engine

structure InZone (e : Engine) (zone : Zone) : Prop where
  clock : e.clock.zone = zone
  due : ∀ r ∈ e.registry.live, r.due.zone = zone

/-- The engine after so many messages, each of them handled with the answers of its own moment. -/
def attend (e : Engine) (answers : Nat → Inputs) (n : Nat) : Engine :=
  (e.run ((List.range n).map fun i => .next (answers i))).engine

structure Leg where
  due : Instant
  fired : Nat

/-- One round: moves to the next deadline, unless it is after `stop`, and handles messages until
none is left. -/
inductive Round (stop : Instant) (answers : Nat → Inputs) (e : Engine) : Leg → Engine → Prop
  | go {due : Instant} {n : Nat} (hnext : e.timers.nextDue? = some due) (hwithin : due ≤ stop)
    (hdone : ((e.advanceTo due).2.attend answers n).nextMessage? = none) :
    Round stop answers e ⟨due, (e.advanceTo due).1⟩ ((e.advanceTo due).2.attend answers n)

/-- Rounds one after another. What the engine is told may be different in each and from message to
message. -/
inductive Driven (stop : Instant) (answers : Nat → Nat → Inputs) (e : Engine) :
    List Leg → Engine → Prop
  | start : Driven stop answers e [] e
  | round {legs : List Leg} {leg : Leg} {f g : Engine} (hdriven : Driven stop answers e legs f)
    (hround : f.Round stop (answers legs.length) leg g) : Driven stop answers e (legs ++ [leg]) g

def Stopped (e : Engine) (stop : Instant) : Prop :=
  ∀ due, e.timers.nextDue? = some due → stop < due

/-! ### Messages -/

/-- Nothing has been armed; what waits was there before. -/
structure Remains (e f : Engine) : Prop where
  live : f.registry.live ⊆ e.registry.live
  pending : f.timers.pending.Sublist e.timers.pending
  fires : f.fires ⊆ e.fires
  commands : f.commands ⊆ e.commands
  clock : f.clock = e.clock

/-- What waits is from a schedule that was built at this instant. -/
structure Renewed (e : Engine) : Prop where
  ahead : ∀ r ∈ e.registry.live, e.clock < r.due
  zone : ∀ r ∈ e.registry.live, r.due.zone = e.clock.zone
  rolls : ∀ r ∈ e.registry.live, r.event.kind = .rollover → e.clock.date < r.due.date
  unreported : e.fires = []

/-- A request waits, or the report of a rollover. -/
def MayRebuild (e : Engine) : Prop :=
  e.commands ≠ [] ∨ ∃ r ∈ e.registry.live, r.event.kind = .rollover ∧ r.fire ∈ e.fires

theorem Remains.refl (e : Engine) : e.Remains e :=
  ⟨List.Subset.refl _, List.Sublist.refl _, List.Subset.refl _, List.Subset.refl _, rfl⟩

theorem Remains.trans {e f g : Engine} (hfirst : e.Remains f) (hsecond : f.Remains g) :
    e.Remains g where
  live := List.Subset.trans hsecond.live hfirst.live
  pending := hsecond.pending.trans hfirst.pending
  fires := List.Subset.trans hsecond.fires hfirst.fires
  commands := List.Subset.trans hsecond.commands hfirst.commands
  clock := hsecond.clock.trans hfirst.clock

theorem Renewed.of_remains {e f : Engine} (hrenewed : e.Renewed) (hremains : e.Remains f) :
    f.Renewed where
  ahead r hlive := hremains.clock ▸ hrenewed.ahead r (hremains.live hlive)
  zone r hlive := hremains.clock ▸ hrenewed.zone r (hremains.live hlive)
  rolls r hlive hrolls := hremains.clock ▸ hrenewed.rolls r (hremains.live hlive) hrolls
  unreported := List.subset_nil.1 (hrenewed.unreported ▸ hremains.fires)

theorem MayRebuild.of_remains {e f : Engine} (hmay : f.MayRebuild) (hremains : e.Remains f) :
    e.MayRebuild := by
  rcases hmay with hasked | ⟨r, hlive, hrolls, hreported⟩
  · exact .inl fun hnone => hasked (List.subset_nil.1 (hnone ▸ hremains.commands))
  · exact .inr ⟨r, hremains.live hlive, hrolls, hremains.fires hreported⟩

theorem renewed_rebuild {e : Engine} (hsuccessor : e.clock.date.next?.isSome) (inputs : Inputs) :
    (e.rebuild inputs).engine.Renewed := by
  have hunreported := (Prod.mk.inj (queues_rebuild e inputs)).1
  cases hloaded : inputs.load e.clock.date with
  | error reason =>
    have hempty : ∀ r, r ∉ (e.rebuild inputs).engine.registry.live := by
      simp [(empties_rebuild hloaded).live]
    exact ⟨fun r hlive => absurd hlive (hempty r), fun r hlive => absurd hlive (hempty r),
      fun r hlive => absurd hlive (hempty r), hunreported⟩
  | ok day =>
    have hentry {r : Registration} (hlive : r ∈ (e.rebuild inputs).engine.registry.live) :=
      (schedules_rebuild hloaded).entries.due_eq hlive
    refine ⟨fun r hlive => ?_, fun r hlive => ?_, fun r hlive hrolls => ?_, hunreported⟩
    · rw [clock_rebuild, (hentry hlive).2]
      rcases DailySchedule.mem_events_cases _ _ _ _ _ (hentry hlive).1 with ⟨-, -, hahead⟩ |
        hrollover
      · exact hahead
      · obtain ⟨tomorrow, hnext⟩ := Option.isSome_iff_exists.1 hsuccessor
        rw [hrollover, DailySchedule.rolloverDate_of_next hnext]
        exact DailySchedule.lt_fireAt_rollover hnext _
    · rw [clock_rebuild, (hentry hlive).2]
      rfl
    · rw [clock_rebuild, (hentry hlive).2]
      rcases DailySchedule.mem_events_cases _ _ _ _ _ (hentry hlive).1 with ⟨-, hplays, -⟩ |
        hrollover
      · exact absurd hrolls hplays
      · rw [hrollover]
        exact date_lt_rollover hsuccessor _

theorem remains_claimed {e : Engine} {fires : List Fire} (hfewer : fires ⊆ e.fires)
    (r : Registration) : e.Remains (e.claimed r fires) :=
  { Remains.refl e with fires := hfewer, live := List.filter_sublist.subset }

theorem remains_cancelAll (e : Engine) {commands : List Command} (hfewer : commands ⊆ e.commands) :
    e.Remains { e with registry := e.registry.cancelAll.2, commands } where
  live := by
    show e.registry.cancelAll.2.live ⊆ _
    rw [Registry.live_cancelAll]
    exact List.nil_subset _
  pending := by
    show e.registry.cancelAll.2.timers.pending.Sublist _
    rw [Registry.cancelAll, Registry.dropAll_eq]
    exact List.filter_sublist
  fires := List.Subset.refl _
  commands := hfewer
  clock := by
    show e.registry.cancelAll.2.timers.clock = _
    rw [Registry.cancelAll, Registry.dropAll_eq]
    rfl

/-- A report leaves what waits, unless it is that of a rollover. -/
theorem handleFire_remains_or_renews {e : Engine} (hsuccessor : e.clock.date.next?.isSome)
    (inputs : Inputs) {report : Fire} {fires : List Fire} (hreported : e.fires = report :: fires) :
    let f := (({ e with fires } : Engine).handleFire inputs report).engine
    e.Remains f ∨ f.Renewed ∧ f.clock = e.clock ∧ e.MayRebuild := by
  have hfewer : fires ⊆ e.fires := hreported ▸ List.subset_cons_self report fires
  rcases handleFire_cases { e with fires } inputs report with
    ⟨-, houtcome⟩ | ⟨r, hlive, hsame, ⟨-, d, a, -, houtcome⟩ | ⟨hrolls, houtcome⟩⟩
  · rw [houtcome]
    exact .inl { Remains.refl e with fires := hfewer }
  · rw [houtcome]
    exact .inl { remains_claimed hfewer r with }
  · let f := e.claimed r fires
    rw [show ({ e with fires } : Engine).handleFire inputs report = f.rollOver inputs r from
      houtcome]
    by_cases hallowed : f.debounce.allows r.key f.clock.millis
    · rw [rollOver_of_allows hallowed]
      refine .inr ⟨renewed_rebuild ?_ inputs, clock_rebuild _ inputs, .inr ⟨r, hlive, hrolls, ?_⟩⟩
      · exact hsuccessor
      · simp [hreported, hsame]
    · rw [rollOver_of_not_allows hallowed]
      exact .inl (remains_claimed hfewer r)

/-- One message leaves what waits or renews it, and the latter it does for a reason. -/
theorem perform_next_cases {e : Engine} (hsuccessor : e.clock.date.next?.isSome)
    (inputs : Inputs) :
    e.Remains (e.perform (.next inputs)).engine ∨
      (e.perform (.next inputs)).engine.Renewed ∧
        (e.perform (.next inputs)).engine.clock = e.clock ∧ e.MayRebuild := by
  cases hwaiting : e.nextMessage? with
  | none =>
    rw [perform_next_of_idle hwaiting]
    exact .inl (.refl e)
  | some p =>
    obtain ⟨message, rest⟩ := p
    rcases nextMessage?_cases hwaiting with
      ⟨report, fires, hreported, -, -⟩ | ⟨command, commands, hunreported, hasked, -, -⟩
    · rw [perform_next_of_fires hreported]
      exact handleFire_remains_or_renews hsuccessor inputs hreported
    · rw [perform_next_of_commands hunreported hasked]
      cases command with
      | reschedule reason =>
        refine .inr ⟨renewed_rebuild ?_ inputs, clock_rebuild _ inputs, .inl ?_⟩
        · exact hsuccessor
        · simp [hasked]
      | clear => exact .inl (remains_cancelAll e (hasked ▸ List.subset_cons_self _ _))

theorem attend_succ (e : Engine) (answers : Nat → Inputs) (n : Nat) :
    e.attend answers (n + 1) = ((e.attend answers n).perform (.next (answers n))).engine := by
  rw [attend, List.range_succ, List.map_append, List.map_singleton, run_snoc]
  rfl

theorem attend_cases {e : Engine} (hsuccessor : e.clock.date.next?.isSome)
    (answers : Nat → Inputs) (n : Nat) :
    e.Remains (e.attend answers n) ∨
      (e.attend answers n).Renewed ∧ (e.attend answers n).clock = e.clock ∧ e.MayRebuild := by
  induction n with
  | zero => exact .inl (.refl e)
  | succ n ih =>
    have hclock : (e.attend answers n).clock = e.clock := ih.elim Remains.clock fun h => h.2.1
    rw [attend_succ]
    rcases perform_next_cases (hclock ▸ hsuccessor) (answers n) with hremains |
      ⟨hrenewed, hsame, hmay⟩
    · rcases ih with hbefore | ⟨hrenewed, -, hmay⟩
      · exact .inl (hbefore.trans hremains)
      · exact .inr ⟨hrenewed.of_remains hremains, hremains.clock.trans hclock, hmay⟩
    · refine .inr ⟨hrenewed, hsame.trans hclock, ?_⟩
      exact ih.elim hmay.of_remains fun h => h.2.2

/-- The messages come to an end, whatever the answers are. -/
theorem exists_attend_idle (e : Engine) (answers : Nat → Inputs) :
    ∃ n, (e.attend answers n).nextMessage? = none := by
  suffices hgeneral : ∀ k n, (e.attend answers n).queued ≤ k →
      ∃ n, (e.attend answers n).nextMessage? = none from hgeneral _ 0 (Nat.le_refl _)
  intro k
  induction k with
  | zero =>
    intro n hfew
    cases hwaiting : (e.attend answers n).nextMessage? with
    | none => exact ⟨n, hwaiting⟩
    | some p =>
      have := queued_nextMessage? hwaiting
      omega
  | succ k ih =>
    intro n hfew
    cases hwaiting : (e.attend answers n).nextMessage? with
    | none => exact ⟨n, hwaiting⟩
    | some p =>
      obtain ⟨message, rest⟩ := p
      have hone := queued_nextMessage? hwaiting
      have hhandled := queued_handle_le rest (answers n) message
      refine ih (n + 1) ?_
      rw [attend_succ, perform, hwaiting]
      show (rest.handle (answers n) message).engine.queued ≤ k
      omega

theorem sound_attend {e : Engine} (hsound : e.Sound) (answers : Nat → Inputs) (n : Nat) :
    (e.attend answers n).Sound :=
  (leadsTo_run e _).sound hsound

/-! ### Rounds -/

/-- An engine between two rounds. No rebuild comes before the day. -/
structure Underway (stop : Instant) (day : Int) (e : Engine) : Prop where
  sound : e.Sound
  zone : e.InZone stop.zone
  begun : e.clock ≤ stop
  earliest : day ≤ e.clock.date.dayNumber ∨ e.queues = ([], []) ∧
    ∀ r ∈ e.registry.live, r.event.kind = .rollover → day ≤ r.due.date.dayNumber

/-- The timers that may still fire: those that wait, and for each day on which there may be a
rebuild as many as a schedule may have. -/
def prospects (stop : Instant) (day : Int) (e : Engine) : Nat :=
  e.timers.pending.length + maxEventsPerDay * (stop.date.dayNumber - day + 1).toNat

theorem isNext_pending {e : Engine} {due : Instant} (hnext : e.timers.nextDue? = some due) :
    ∃ timer ∈ e.timers.pending, timer.due = due := by
  obtain ⟨timer, hleast, hsame⟩ := Option.map_eq_some_iff.1 hnext
  exact ⟨timer, Timeline.mem_of_earliest? hleast, hsame⟩

namespace Underway

variable {e f : Engine} {stop due : Instant} {day : Int} (hunderway : e.Underway stop day)
  (hnext : e.timers.nextDue? = some due) (hwithin : due ≤ stop)
include hunderway

theorem zone_pending : ∀ timer ∈ e.timers.pending, timer.due.zone = e.clock.zone := by
  intro timer hwaits
  obtain ⟨r, hlive, rfl⟩ := hunderway.sound.books.owned timer hwaits
  exact (hunderway.zone.due r hlive).trans hunderway.zone.clock.symm

include hnext hwithin

theorem clock_advanceTo : (e.advanceTo due).2.clock.zone = stop.zone ∧
    (e.advanceTo due).2.clock ≤ stop ∧ e.clock ≤ (e.advanceTo due).2.clock := by
  obtain ⟨timer, hwaits, rfl⟩ := isNext_pending hnext
  refine ⟨?_, Timeline.clock_advanceTo_le hunderway.begun hwithin,
    (e.timers.advanceTo_spec timer.due).1⟩
  have hzones := hunderway.zone_pending
  exact (Timeline.zone_advanceTo hzones (hzones timer hwaits)).trans hunderway.zone.clock

theorem date_advanceTo : e.clock.date.dayNumber ≤ (e.advanceTo due).2.clock.date.dayNumber ∧
    (e.advanceTo due).2.clock.date ≤ stop.date := by
  obtain ⟨hzone, hbegun, honward⟩ := hunderway.clock_advanceTo hnext hwithin
  exact ⟨Instant.date_le honward (hunderway.zone.clock.trans hzone.symm),
    Instant.date_le hbegun hzone⟩

/-- What makes a round rebuild does not come before its day. -/
theorem day_le_of_mayRebuild (hmay : (e.advanceTo due).2.MayRebuild) :
    day ≤ (e.advanceTo due).2.clock.date.dayNumber := by
  obtain ⟨hzone, -, -⟩ := hunderway.clock_advanceTo hnext hwithin
  rcases hunderway.earliest with hnow | ⟨hidle, hrolls⟩
  · exact Int.le_trans hnow (hunderway.date_advanceTo hnext hwithin).1
  · obtain ⟨hunreported, hunasked⟩ := Prod.mk.inj hidle
    rcases hmay with hasked | ⟨r, hlive, hrollover, hreported⟩
    · exact absurd hunasked hasked
    · -- no report waited before, so this one comes from a timer that was due in this round
      have hlive : r ∈ e.registry.live := hlive
      have hreported : r.fire ∈ e.fires ++ (e.timers.advanceTo due).1.map Timer.payload := hreported
      rw [hunreported, List.nil_append] at hreported
      obtain ⟨timer, hfired, hsame⟩ := List.mem_map.1 hreported
      obtain ⟨hwaits, hreached⟩ := (e.timers.advanceTo_spec due).2 timer hfired
      obtain ⟨g, hg, rfl⟩ := hunderway.sound.books.owned timer hwaits
      obtain rfl : g = r := hunderway.sound.books.eq_of_fire_eq hg hlive hsame
      exact Int.le_trans (hrolls g hlive hrollover)
        (Instant.date_le hreached ((hunderway.zone.due g hlive).trans hzone.symm))

variable (hsound : f.Sound) (hidle : f.queues = ([], []))
include hsound hidle

/-- A round without a rebuild leaves what has not fired. -/
theorem keep (hremains : (e.advanceTo due).2.Remains f) :
    f.Underway stop day ∧ (e.advanceTo due).1 + f.prospects stop day ≤ e.prospects stop day := by
  obtain ⟨hzone, hbegun, -⟩ := hunderway.clock_advanceTo hnext hwithin
  refine ⟨⟨hsound, ⟨?_, fun r hlive => hunderway.zone.due r (hremains.live hlive)⟩, ?_, ?_⟩, ?_⟩
  · rw [hremains.clock]
    exact hzone
  · rw [hremains.clock]
    exact hbegun
  · rcases hunderway.earliest with hnow | ⟨-, hrolls⟩
    · rw [hremains.clock]
      exact .inl (Int.le_trans hnow (hunderway.date_advanceTo hnext hwithin).1)
    · exact .inr ⟨hidle, fun r hlive => hrolls r (hremains.live hlive)⟩
  · have hleft := hremains.pending.length_le
    have hfewer : (e.advanceTo due).1 + (e.advanceTo due).2.timers.pending.length ≤
        e.timers.pending.length := e.timers.length_advanceTo_le due
    unfold prospects
    omega

/-- A round with a rebuild has its date paid for, and the next rebuild comes on a later one. -/
theorem renew (hrenewed : f.Renewed) (hclock : f.clock = (e.advanceTo due).2.clock)
    (hmay : (e.advanceTo due).2.MayRebuild) :
    ∃ day', f.Underway stop day' ∧
      (e.advanceTo due).1 + f.prospects stop day' ≤ e.prospects stop day := by
  obtain ⟨hzone, hbegun, -⟩ := hunderway.clock_advanceTo hnext hwithin
  have hbefore := hunderway.day_le_of_mayRebuild hnext hwithin hmay
  have hlast : (e.advanceTo due).2.clock.date.dayNumber ≤ stop.date.dayNumber :=
    (hunderway.date_advanceTo hnext hwithin).2
  rw [← hclock] at hzone hbegun hbefore hlast
  refine ⟨f.clock.date.dayNumber + 1,
    ⟨hsound, ⟨hzone, fun r hlive => ?_⟩, hbegun, .inr ⟨hidle, ?_⟩⟩, ?_⟩
  · rw [hrenewed.zone r hlive, hzone]
  · exact fun r hlive hrolls => hrenewed.rolls r hlive hrolls
  · have hfew : f.timers.pending.length ≤ 11 :=
      Nat.le_trans hsound.books.length_pending_le hsound.books.length_live_le
    have hfewer : (e.advanceTo due).1 + (e.advanceTo due).2.timers.pending.length ≤
        e.timers.pending.length := e.timers.length_advanceTo_le due
    unfold prospects maxEventsPerDay
    omega

end Underway

/-- A round uses up prospects, and what waits afterwards is due later. -/
theorem Underway.round {e f : Engine} {stop : Instant} {day : Int} {leg : Leg}
    {answers : Nat → Inputs} (hunderway : e.Underway stop day) (hsuccessor : stop.date.next?.isSome)
    (hround : e.Round stop answers leg f) :
    (∃ day', f.Underway stop day' ∧ leg.fired + f.prospects stop day' ≤ e.prospects stop day) ∧
    0 < leg.fired ∧ (∃ timer ∈ e.timers.pending, timer.due = leg.due) ∧
    ∀ timer ∈ f.timers.pending, leg.due < timer.due := by
  obtain @⟨due, n, hnext, hwithin, hdone⟩ := hround
  have hsuccessorNow := Date.isSome_next?_of_le (hunderway.date_advanceTo hnext hwithin).2
    hsuccessor
  have hsound : ((e.advanceTo due).2.attend answers n).Sound :=
    sound_attend (sound_advanceTo hunderway.sound due) answers n
  have hidle := nextMessage?_eq_none_iff.1 hdone
  obtain ⟨hreached, hnotDue⟩ := e.timers.advanceTo_reaches due
  refine and_assoc.1 ⟨⟨?_, List.length_pos_of_ne_nil (Timeline.advanceTo_ne_nil hnext)⟩,
    isNext_pending hnext, ?_⟩
  · rcases attend_cases hsuccessorNow answers n with hremains | ⟨hrenewed, hclock, hmay⟩
    · exact ⟨day, hunderway.keep hnext hwithin hsound hidle hremains⟩
    · exact hunderway.renew hnext hwithin hsound hidle hrenewed hclock hmay
  · intro timer hwaits
    rcases attend_cases hsuccessorNow answers n with hremains | ⟨hrenewed, hclock, -⟩
    · exact Int.not_le.1 (hnotDue timer (hremains.pending.subset hwaits))
    · obtain ⟨r, hlive, rfl⟩ := hsound.books.owned timer hwaits
      have hahead := hrenewed.ahead r hlive
      rw [hclock] at hahead
      exact Int.lt_of_le_of_lt hreached hahead

/-! ### The whole drive -/

variable {e f : Engine} {stop due : Instant} {day : Int} {answers : Nat → Nat → Inputs}
  {legs : List Leg}

theorem sum_fired_append (legs : List Leg) (leg : Leg) :
    ((legs ++ [leg]).map Leg.fired).sum = (legs.map Leg.fired).sum + leg.fired := by
  simp

/-- All rounds together fire no more timers than there are prospects, and their deadlines rise. -/
theorem Underway.driven (hunderway : e.Underway stop day) (hsuccessor : stop.date.next?.isSome)
    (hdriven : e.Driven stop answers legs f) :
    (∃ day', f.Underway stop day' ∧
      (legs.map Leg.fired).sum + f.prospects stop day' ≤ e.prospects stop day) ∧
    legs.length ≤ (legs.map Leg.fired).sum ∧ (legs.map Leg.due).Pairwise (· < ·) ∧
    ∀ leg ∈ legs, ∀ timer ∈ f.timers.pending, leg.due < timer.due := by
  induction hdriven with
  | start => exact ⟨⟨day, hunderway, by simp⟩, Nat.le_refl _, List.Pairwise.nil, by simp⟩
  | @round legs leg f g hdriven hround ih =>
    obtain ⟨⟨day₁, hbetween, hspent⟩, hcounted, hrising, hbehind⟩ := ih
    obtain ⟨⟨day₂, hafter, hused⟩, hfires, ⟨next, hwaits, hsame⟩, hlater⟩ :=
      hbetween.round hsuccessor hround
    have hrises (former : Leg) (hbefore : former ∈ legs) : former.due < leg.due :=
      hsame ▸ hbehind former hbefore next hwaits
    rw [sum_fired_append, List.length_append, List.length_singleton]
    refine ⟨⟨day₂, hafter, by omega⟩, by omega, ?_, ?_⟩
    · rw [List.map_append]
      refine List.pairwise_append.2 ⟨hrising, List.pairwise_singleton _ _, ?_⟩
      simpa using hrises
    · intro former hamong timer hwaits
      rcases List.mem_append.1 hamong with hbefore | hlast
      · exact Int.lt_trans (hrises former hbefore) (hlater timer hwaits)
      · obtain rfl := List.mem_singleton.1 hlast
        exact hlater timer hwaits

theorem not_stopped_iff : ¬ e.Stopped stop ↔ ∃ due, e.timers.nextDue? = some due ∧ due ≤ stop := by
  simp only [Stopped, not_forall, exists_prop]
  exact exists_congr fun due => and_congr_right fun _ => Int.not_lt

/-- Where every unfinished drive goes on with some property kept, a drive with the property comes to
its stop. -/
theorem Underway.exists_stopped {P : List Leg → Engine → Prop} (hunderway : e.Underway stop day)
    (hsuccessor : stop.date.next?.isSome) (hdriven : e.Driven stop answers legs f)
    (hkept : P legs f)
    (hgoesOn : ∀ legs f due, P legs f → f.timers.nextDue? = some due → due ≤ stop →
      ∃ leg g, f.Round stop (answers legs.length) leg g ∧ P (legs ++ [leg]) g) :
    ∃ legs f, e.Driven stop answers legs f ∧ P legs f ∧ f.Stopped stop := by
  induction left : e.prospects stop day - (legs.map Leg.fired).sum using Nat.strong_induction_on
    generalizing legs f with
  | h left ih =>
    by_cases hstopped : f.Stopped stop
    · exact ⟨legs, f, hdriven, hkept, hstopped⟩
    · obtain ⟨due, hnext, hwithin⟩ := not_stopped_iff.1 hstopped
      obtain ⟨leg, g, hround, hkept⟩ := hgoesOn legs f due hkept hnext hwithin
      obtain ⟨⟨_, hbetween, hspent⟩, -⟩ := hunderway.driven hsuccessor hdriven
      obtain ⟨⟨_, -, hused⟩, hfires, -⟩ := hbetween.round hsuccessor hround
      refine ih _ ?_ (hdriven.round hround) hkept rfl
      rw [sum_fired_append]
      omega

theorem attend_processPending (e : Engine) (inputs : Inputs) :
    e.attend (fun _ => inputs) (e.processPending inputs).1 =
      (e.processPending inputs).2.engine := by
  rw [attend, List.map_const', List.length_range, run_replicate_next]

theorem round_processPending (hnext : e.timers.nextDue? = some due) (hwithin : due ≤ stop)
    (inputs : Inputs) :
    e.Round stop (fun _ => inputs) ⟨due, (e.advanceTo due).1⟩
      ((e.advanceTo due).2.processPending inputs).2.engine := by
  rw [← attend_processPending]
  refine .go hnext hwithin ?_
  rw [attend_processPending, nextMessage?_eq_none_iff]
  exact queues_processPending _ inputs

theorem Stopped.round?_eq_none (hstopped : e.Stopped stop) (inputs : Inputs) :
    e.round? inputs stop = none := by
  unfold round?
  split
  · rfl
  · next due hnext => exact if_pos (hstopped due hnext)

theorem Underway.driveUntil (hunderway : e.Underway stop e.clock.date.dayNumber)
    (hsuccessor : stop.date.next?.isSome) (inputs : Inputs) :
    ∃ legs, e.Driven stop (fun _ _ => inputs) legs (e.driveUntil inputs stop).engine ∧
      (e.driveUntil inputs stop).engine.Stopped stop := by
  have hatFirst : e.Driven stop (fun _ _ => inputs) [] e := .start
  obtain ⟨legs, f, hdriven, ⟨actions, hdrives⟩, hstopped⟩ := hunderway.exists_stopped
    (P := fun legs f => ∃ actions, e.Drives inputs stop legs.length ⟨f, actions⟩)
    hsuccessor hatFirst ⟨[], .refl e inputs stop⟩
    fun legs f due ⟨actions, hdrives⟩ hisNext hwithin => by
      have hnext := round?_eq hisNext hwithin inputs
      refine ⟨_, _, round_processPending hisNext hwithin inputs, ?_⟩
      rw [List.length_append]
      exact ⟨_, hdrives.trans (.round hnext)⟩
  have henough : legs.length ≤ e.roundLimit stop := by
    obtain ⟨⟨_, -, hspent⟩, hcounted, -⟩ := hunderway.driven hsuccessor hdriven
    rw [show e.roundLimit stop = e.prospects stop e.clock.date.dayNumber from rfl]
    omega
  have hsame : e.driveUntil inputs stop = ⟨f, actions⟩ :=
    hdrives.driveFor_eq (hstopped.round?_eq_none inputs) henough
  exact ⟨legs, hsame ▸ hdriven, hsame ▸ hstopped⟩

end Engine

namespace Rehearsal

/-- The rehearsal after so many rounds. Before each of them something may change. -/
def amid (changes : Nat → Rehearsal → Rehearsal) (r : Rehearsal) : Nat → Rehearsal
  | 0 => r
  | rounds + 1 => ((changes rounds (r.amid changes rounds)).perform .next).2

theorem engine_perform_next {r : Rehearsal} {due : Instant}
    (hnext : r.engine.timers.nextDue? = some due) :
    (r.perform .next).2.engine =
      ((r.engine.advanceTo due).2.processPending r.inputs).2.engine := by
  rw [perform, next?, hnext]
  rfl

end Rehearsal

namespace Engine

variable {e : Engine} {stop : Instant}

/-- The deliveries of a rehearsal do not keep it from its stop, nor does what changes outside the
engine. -/
theorem Underway.rehearsal {day : Int} {r : Rehearsal} (hunderway : r.engine.Underway stop day)
    (hsuccessor : stop.date.next?.isSome) {changes : Nat → Rehearsal → Rehearsal}
    (houtside : ∀ n r, (changes n r).engine = r.engine) :
    ∃ legs, r.engine.Driven stop (fun n _ => (changes n (r.amid changes n)).inputs) legs
        (r.amid changes legs.length).engine ∧
      (r.amid changes legs.length).engine.Stopped stop := by
  have hatFirst : r.engine.Driven stop (fun n _ => (changes n (r.amid changes n)).inputs) []
      r.engine := .start
  obtain ⟨legs, f, hdriven, rfl, hstopped⟩ := hunderway.exists_stopped
    (P := fun legs f => (r.amid changes legs.length).engine = f)
    hsuccessor hatFirst rfl fun legs f due hsame hnext hwithin => by
      obtain rfl : (changes legs.length (r.amid changes legs.length)).engine = f :=
        (houtside _ _).trans hsame
      refine ⟨_, _, round_processPending hnext hwithin _, ?_⟩
      rw [List.length_append]
      exact Rehearsal.engine_perform_next hnext
  exact ⟨legs, hdriven, hstopped⟩

/-- Driving from deadline to deadline comes to its stop, whatever the engine is told and whatever
fails. Each round fires a timer and its deadline is after those before; no more timers fire than
there are registrations at first and eleven for each date. An engine that drives itself and a
rehearsal that is driven, with its deliveries, are among the drives. -/
theorem driving_ends (harises : e.Arises) (hzone : e.InZone stop.zone) (hahead : e.clock ≤ stop)
    (hsuccessor : stop.date.next?.isSome) :
    (∀ answers legs f, e.Driven stop answers legs f →
      (∃ more g, e.Driven stop answers (legs ++ more) g ∧ g.Stopped stop) ∧
      legs.length ≤ (legs.map Leg.fired).sum ∧
      (legs.map Leg.fired).sum ≤ e.registry.size +
        maxEventsPerDay * (stop.date.dayNumber - e.clock.date.dayNumber + 1).toNat ∧
      (legs.map Leg.due).Pairwise (· < ·)) ∧
    (∀ inputs, ∃ legs, e.Driven stop (fun _ _ => inputs) legs (e.driveUntil inputs stop).engine ∧
      (e.driveUntil inputs stop).engine.Stopped stop) ∧
    ∀ (r : Rehearsal) (changes : Nat → Rehearsal → Rehearsal), r.engine = e →
      (∀ n r, (changes n r).engine = r.engine) →
      ∃ legs, e.Driven stop (fun n _ => (changes n (r.amid changes n)).inputs) legs
          (r.amid changes legs.length).engine ∧
        (r.amid changes legs.length).engine.Stopped stop := by
  have hunderway : e.Underway stop e.clock.date.dayNumber :=
    ⟨harises.sound, hzone, hahead, .inl (Int.le_refl _)⟩
  refine ⟨fun answers legs f hdriven => ?_, fun inputs => hunderway.driveUntil hsuccessor inputs,
    fun r changes hsame houtside => ?_⟩
  · obtain ⟨⟨_, -, hspent⟩, hcounted, hrising, -⟩ := hunderway.driven hsuccessor hdriven
    refine ⟨?_, hcounted, ?_, hrising⟩
    · obtain ⟨_, g, hdriven, ⟨more, rfl⟩, hstopped⟩ := hunderway.exists_stopped
        (P := fun all _ => legs <+: all) hsuccessor hdriven (List.prefix_refl legs)
        fun all f due hamong hnext hwithin => by
          obtain ⟨n, hdone⟩ := exists_attend_idle (f.advanceTo due).2 (answers all.length)
          exact ⟨_, _, .go hnext hwithin hdone, hamong.trans (List.prefix_append _ _)⟩
      exact ⟨more, g, hdriven, hstopped⟩
    · have hfew : e.timers.pending.length ≤ e.registry.size :=
        harises.sound.books.length_pending_le
      unfold prospects at hspent
      omega
  · subst hsame
    exact hunderway.rehearsal hsuccessor houtside

/-- An azan, its announcement and the rollover wait, and two more dates follow. -/
theorem driving_ends_three_dates :
    ∃ e : Engine, e.Arises ∧ e.clock = ⟨0, .utc⟩ ∧ e.registry.size = 3 ∧
      ∀ answers, ∃ legs f, e.Driven ⟨259199999, .utc⟩ answers legs f ∧
        f.Stopped ⟨259199999, .utc⟩ ∧ legs.length ≤ 36 ∧
        (legs.map Leg.due).Pairwise (· < ·) := by
  obtain ⟨new, hcreated⟩ : ∃ e, Engine.new {} ⟨0, .utc⟩ = .ok e := ⟨_, rfl⟩
  let e := (new.run [.rebuild (.daily .maghrib ⟨1080, by decide⟩)]).engine
  let stop : Instant := ⟨259199999, .utc⟩
  have harises : e.Arises := .run (.new hcreated) _
  obtain ⟨-, rfl⟩ := new_eq hcreated
  have hclock : e.clock = ⟨0, .utc⟩ := by
    simp only [e]
    cbv
  have hsize : e.registry.size = 3 := by
    simp only [e]
    cbv
  have hzones : e.registry.live.map (·.due.zone) = [.utc, .utc, .utc] := by
    simp only [e]
    cbv
  have hzone : e.InZone .utc := ⟨congrArg Instant.zone hclock, fun r hlive => by
    have hamong := List.mem_map_of_mem (f := (·.due.zone)) hlive
    rw [hzones] at hamong
    simpa using hamong⟩
  have hdates :
      maxEventsPerDay * (stop.date.dayNumber - e.clock.date.dayNumber + 1).toNat = 33 := by
    rw [hclock]
    decide
  have hahead : e.clock ≤ stop := by
    rw [hclock]
    decide
  have hends := driving_ends harises (show e.InZone stop.zone from hzone) hahead (by decide)
  refine ⟨e, harises, hclock, hsize, fun answers => ?_⟩
  obtain ⟨⟨legs, f, hdriven, hstopped⟩, -⟩ := hends.1 answers [] e .start
  obtain ⟨-, hcounted, hfew, hrising⟩ := hends.1 answers _ f hdriven
  rw [List.nil_append] at hdriven hcounted hfew hrising
  exact ⟨legs, f, hdriven, hstopped, by omega, hrising⟩

end Engine

end Muezzin
