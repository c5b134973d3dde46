import Muezzin.Proofs.Advance
import Muezzin.Proofs.LocalTimes
import Muezzin.Proofs.Replacement

/-!
# The rollover that waits

A rebuild leaves one rollover, and it is due after the midnight that follows. What a run keeps of
that is an invariant in two layers. The first holds also in the middle of an operation: the engine
remembers when a rollover ran last, and whoever was refused came too soon after that. The second
holds between operations: one rollover waits unless one was refused since the last rebuild, and its
deadline is far enough from the last run.
-/

namespace Muezzin

namespace Debounce

variable {τ : Type}

theorem lastRun?_stamp_self (d : Debounce τ) (key : String) (now : τ) :
    (d.stamp key now).lastRun? key = some now :=
  SortedMap.get?_insert_self _ _ _

theorem lastRun?_stamp_of_ne (d : Debounce τ) {key other : String} (hdifferent : other ≠ key)
    (now : τ) : (d.stamp key now).lastRun? other = d.lastRun? other :=
  SortedMap.get?_insert_of_ne _ (fun hsame => hdifferent (Std.LawfulEqOrd.eq_of_compare hsame)) _

section
variable [Sub τ] [LE τ] [DecidableLE τ] [OfNat τ 60000]

/-- Only a run less than a minute ago is a reason to refuse. -/
theorem not_allows_iff {d : Debounce τ} {key : String} {now : τ} :
    ¬ d.allows key now ↔ ∃ last, d.lastRun? key = some last ∧ ¬ windowMillis ≤ now - last := by
  rw [allows]
  cases d.lastRun? key with
  | none => simp
  | some last => simp

end

theorem lastRun?_of_not_allows {d : Debounce Int} {key : String} {now : Int}
    (hrefused : ¬ d.allows key now) :
    ∃ last, d.lastRun? key = some last ∧ now - last < windowMillis := by
  obtain ⟨last, hran, hearly⟩ := not_allows_iff.1 hrefused
  exact ⟨last, hran, Int.not_le.1 hearly⟩

theorem le_of_allows {d : Debounce Int} {key : String} {now last : Int}
    (hallowed : d.allows key now) (hran : d.lastRun? key = some last) :
    last + windowMillis ≤ now := by
  rw [allows, hran] at hallowed
  have hminute := of_decide_eq_true hallowed
  omega

end Debounce

namespace Action

def isRebuilt : Action → Bool
  | rebuilt _ _ _ _ => true
  | _ => false

/-- Whether a refused rollover is still without a rebuild after the action. -/
def lapse (lapsed : Bool) : Action → Bool
  | rebuilt _ _ _ _ => false
  | suppressed r _ => lapsed || r.event.kind = .rollover
  | _ => lapsed

/-- A rebuild finds its inputs, and its date has a successor. -/
def keepsPromise : Action → Bool
  | rebuilt date _ _ _ => date.next?.isSome
  | rebuildFailed _ => false
  | _ => true

def ranAt? : Action → Option Instant
  | rolledOver _ now => some now
  | _ => none

def IsQuiet (a : Action) : Prop :=
  a.isRebuilt = false ∧ a.ranAt? = none ∧ ∀ lapsed, a.lapse lapsed = lapsed

end Action

/-- A rollover was refused, and no rebuild came after it. -/
def lapsed (history : List Action) : Bool :=
  history.foldl Action.lapse false

def started (history : List Action) : Bool :=
  history.any Action.isRebuilt

def runTimes (history : List Action) : List Instant :=
  history.filterMap Action.ranAt?

theorem runTimes_append_of_none {history actions : List Action}
    (hnone : ∀ a ∈ actions, a.ranAt? = none) :
    runTimes (history ++ actions) = runTimes history := by
  rw [runTimes, List.filterMap_append, List.filterMap_eq_nil_iff.2 hnone, List.append_nil]
  rfl

theorem exists_of_lapsed {history : List Action} (h : lapsed history = true) :
    ∃ r elapsed, .suppressed r elapsed ∈ history ∧ r.event.kind = .rollover := by
  have hgeneral (before : Bool) (hlater : history.foldl Action.lapse before = true) :
      before = true ∨
        ∃ r elapsed, .suppressed r elapsed ∈ history ∧ r.event.kind = .rollover := by
    clear h
    induction history generalizing before with
    | nil => exact .inl hlater
    | cons a history ih =>
      rcases ih _ hlater with hfirst | ⟨r, elapsed, hrefused, hrolls⟩
      · cases a with
        | rebuilt => cases hfirst
        | suppressed r elapsed =>
          rw [Action.lapse, Bool.or_eq_true, decide_eq_true_eq] at hfirst
          exact hfirst.imp_right fun hrolls => ⟨r, elapsed, List.mem_cons_self, hrolls⟩
        | _ => exact .inl hfirst
      · exact .inr ⟨r, elapsed, List.mem_cons_of_mem a hrefused, hrolls⟩
  exact (hgeneral false h).resolve_left (by simp)

theorem lapsed_append_of_quiet {history actions : List Action} (hquiet : ∀ a ∈ actions, a.IsQuiet) :
    lapsed (history ++ actions) = lapsed history := by
  rw [lapsed, List.foldl_append, ← lapsed]
  generalize lapsed history = before
  induction actions with
  | nil => rfl
  | cons a actions ih =>
    rw [List.foldl_cons, (hquiet a List.mem_cons_self).2.2]
    exact ih fun b hb => hquiet b (List.mem_cons_of_mem a hb)

theorem started_append_of_quiet {history actions : List Action}
    (hquiet : ∀ a ∈ actions, a.IsQuiet) : started (history ++ actions) = started history := by
  have hnothing : actions.any Action.isRebuilt = false :=
    List.any_eq_false.2 fun a ha => by simp [(hquiet a ha).1]
  rw [started, List.any_append, hnothing, Bool.or_false]
  rfl

def Registry.rollovers (r : Registry) : List Registration :=
  r.live.filter (·.event.kind = .rollover)

theorem Registration.AreOf.filter {gs : List Registration} {events : List Event} {zone : Zone}
    (h : AreOf gs events zone) (p : Event → Bool) :
    AreOf (gs.filter fun g => p g.event) (events.filter p) zone := by
  have hkept := congrArg (List.filter fun x : Event × Instant => p x.1) h
  rw [List.filter_map, List.filter_map] at hkept
  exact hkept

/-- Settling a claim leaves the memory of the rollover alone, unless a rollover runs. -/
theorem Settlement.lastRun?_rollover {e : Engine} {inputs : Inputs} {r : Registration}
    {d : Debounce Int} {a : Action} (hsettled : Settlement e inputs r d a)
    (hproper : r.event.Proper) (hothers : r.event.kind = .rollover → a = .superseded r) :
    d.lastRun? Event.rolloverKey = e.debounce.lastRun? Event.rolloverKey := by
  cases hsettled with
  | handedOff hplays | unvoiced hplays =>
    have hdifferent : Event.rolloverKey ≠ r.key :=
      fun hsame => hplays (hproper.key_eq_rolloverKey_iff.1 hsame.symm)
    exact Debounce.lastRun?_stamp_of_ne _ hdifferent _
  | suppressed | withdrawn | ignored | superseded => rfl
  | rolledOver hrolls => cases hothers hrolls

namespace Engine

theorem lastRun?_settleAll {inputs : Inputs} {rs : List Registration} {e : Engine}
    (hproper : ∀ r ∈ rs, r.event.Proper) :
    (settleAll inputs rs e).engine.debounce.lastRun? Event.rolloverKey =
      e.debounce.lastRun? Event.rolloverKey := by
  induction rs generalizing e with
  | nil => rfl
  | cons r rs ih =>
    obtain ⟨d, a, hsettled, hreplaced, houtcome⟩ := settleDue_settles e inputs r
    rw [settleAll, houtcome]
    refine (ih fun g hg => hproper g (List.mem_cons_of_mem r hg)).trans ?_
    exact hsettled.lastRun?_rollover (hproper r List.mem_cons_self) hreplaced

theorem lastRun?_prepared {e : Engine} {history : List Action}
    (hsound : Moment.Sound ⟨e, [], history⟩) (inputs : Inputs) :
    (e.prepared inputs).debounce.lastRun? Event.rolloverKey =
      e.debounce.lastRun? Event.rolloverKey := by
  have hclaimed : Moment.Sound ⟨e.claimDue.2, e.claimDue.1, history⟩ :=
    (steps_claimDue e history).keep Moment.Step.sound hsound
  exact lastRun?_settleAll hclaimed.proper

end Engine

/-- The rollover of a schedule is due after the coming midnight by its time of day. -/
theorem lt_due_rollover {clock : Instant} (hsuccessor : clock.date.next?.isSome)
    (time : TimeOfDay) :
    clock.millis + millisPerMinute * time.minutes <
      ((Event.rollover (DailySchedule.rolloverDate clock.date) time).fireAt clock.zone).millis := by
  obtain ⟨date, hnext⟩ := Option.isSome_iff_exists.1 hsuccessor
  have hnumber := (Date.next?_eq_some_iff.1 hnext).2
  rw [DailySchedule.rolloverDate_of_next hnext]
  show clock.millis + 60000 * time.minutes < (time.on date clock.zone).millis
  rw [TimeOfDay.millis_on, hnumber, clock.dayNumber_date]
  omega

theorem lt_rollover {clock : Instant} (hsuccessor : clock.date.next?.isSome) (time : TimeOfDay) :
    clock < (Event.rollover (DailySchedule.rolloverDate clock.date) time).fireAt clock.zone := by
  have hlater := lt_due_rollover hsuccessor time
  show clock.millis < _
  unfold millisPerMinute at hlater
  omega

/-- Why a rollover was refused: it was due at midnight, the one before ran in the minute before that
midnight, and less than a minute later this one was claimed. -/
def TooSoon (history : List Action) (rolloverTime : TimeOfDay) (r : Registration)
    (elapsed : Int) : Prop :=
  rolloverTime = .midnight ∧ elapsed < Debounce.windowMillis ∧
    ∃ ran ∈ runTimes history, ran < r.due ∧ r.due.millis ≤ ran.millis + elapsed

theorem TooSoon.append {history : List Action} {rolloverTime : TimeOfDay} {r : Registration}
    {elapsed : Int} (h : TooSoon history rolloverTime r elapsed) (later : List Action) :
    TooSoon (history ++ later) rolloverTime r elapsed := by
  obtain ⟨hmidnight, hshort, ran, hrolled, hdue, hclaimed⟩ := h
  refine ⟨hmidnight, hshort, ran, ?_, hdue, hclaimed⟩
  rw [runTimes, List.filterMap_append]
  exact List.mem_append_left _ hrolled

/-- Any two runs are at least a minute apart. -/
def Apart (times : List Instant) : Prop :=
  times.Pairwise fun a b => a.millis + Debounce.windowMillis ≤ b.millis

theorem Apart.le_getLast {times : List Instant} (hapart : Apart times) {last : Instant}
    (hisLast : times.getLast? = some last) : ∀ ran ∈ times, ran ≤ last := by
  obtain ⟨earlier, rfl⟩ := List.getLast?_eq_some_iff.1 hisLast
  intro ran h
  rcases List.mem_append.1 h with h | h
  · have hminute := (List.pairwise_append.1 hapart).2.2 ran h last List.mem_cons_self
    show ran.millis ≤ last.millis
    unfold Debounce.windowMillis at hminute
    omega
  · rw [List.mem_singleton.1 h]
    exact Instant.le_refl last

theorem Apart.snoc {times : List Instant} (hapart : Apart times) {now : Instant}
    (hminute : ∀ last, times.getLast? = some last →
      last.millis + Debounce.windowMillis ≤ now.millis) : Apart (times ++ [now]) := by
  refine List.pairwise_append.2 ⟨hapart, List.pairwise_singleton _ _, fun ran h next hnext => ?_⟩
  rw [List.mem_singleton.1 hnext]
  cases hisLast : times.getLast? with
  | none =>
    rw [List.getLast?_eq_none_iff.1 hisLast] at h
    cases h
  | some last =>
    have hbefore : ran.millis ≤ last.millis := hapart.le_getLast hisLast ran h
    have hafter := hminute last hisLast
    omega

namespace Engine

/-- The engine knows when the rollover ran last. -/
structure Remembers (e : Engine) (times : List Instant) : Prop where
  last : e.debounce.lastRun? Event.rolloverKey = times.getLast?.map Instant.millis
  past : ∀ ran ∈ times, ran ≤ e.clock
  apart : Apart times

namespace Remembers

variable {e : Engine} {times : List Instant}

theorem keep (hremembers : e.Remembers times) {f : Engine} (honward : e.clock ≤ f.clock)
    (hmemory : f.debounce.lastRun? Event.rolloverKey = e.debounce.lastRun? Event.rolloverKey) :
    f.Remembers times where
  last := hmemory.trans hremembers.last
  past ran h := Instant.le_trans (hremembers.past ran h) honward
  apart := hremembers.apart

theorem exists_ran (hremembers : e.Remembers times) {last : Int}
    (hmemory : e.debounce.lastRun? Event.rolloverKey = some last) :
    ∃ ran ∈ times, ran.millis = last ∧ ran ≤ e.clock := by
  rw [hremembers.last, Option.map_eq_some_iff] at hmemory
  obtain ⟨ran, hisLast, hreading⟩ := hmemory
  have hlisted := List.mem_of_getLast? hisLast
  exact ⟨ran, hlisted, hreading, hremembers.past ran hlisted⟩

theorem stamp (hremembers : e.Remembers times)
    (hallowed : e.debounce.allows Event.rolloverKey e.clock.millis) :
    Remembers { e with debounce := e.debounce.stamp Event.rolloverKey e.clock.millis }
      (times ++ [e.clock]) where
  last := by
    rw [Debounce.lastRun?_stamp_self, List.getLast?_append_cons]
    rfl
  past := by
    intro ran h
    rcases List.mem_append.1 h with h | h
    · exact hremembers.past ran h
    · rw [List.mem_singleton.1 h]
      exact Instant.le_refl _
  apart := by
    refine hremembers.apart.snoc fun last hisLast => Debounce.le_of_allows hallowed ?_
    rw [hremembers.last, hisLast]
    rfl

end Remembers

/-- What a steady run keeps, also in the middle of an operation. -/
structure Orderly (zone : Zone) (rolloverTime : TimeOfDay) (e : Engine) (history : List Action) :
    Prop where
  sound : Moment.Sound ⟨e, [], history⟩
  zone_eq : e.clock.zone = zone
  time_eq : e.rolloverTime = rolloverTime
  due_zone : ∀ r ∈ e.registry.live, r.due.zone = zone
  willing : Command.clear ∉ e.commands
  remembers : e.Remembers (runTimes history)
  refusals : ∀ r elapsed, .suppressed r elapsed ∈ history → r.event.kind = .rollover →
    TooSoon history rolloverTime r elapsed

/-- What a steady run keeps between operations. -/
structure Rolling (zone : Zone) (rolloverTime : TimeOfDay) (e : Engine) (history : List Action) :
    Prop extends Orderly zone rolloverTime e history where
  reported : ∀ r ∈ e.registry.live, r.fire ∈ e.fires → r.due ≤ e.clock
  lost : lapsed history = true → e.registry.rollovers = []
  waits : lapsed history = false → started history = true → ∃ r, e.registry.rollovers = [r]
  next : ∀ r ∈ e.registry.rollovers, ∀ last,
    e.debounce.lastRun? Event.rolloverKey = some last →
      last + millisPerMinute * rolloverTime.minutes < r.due.millis

end Engine

theorem Registration.AreOf.due_eq {gs : List Registration} {events : List Event} {zone : Zone}
    (h : AreOf gs events zone) {g : Registration} (hg : g ∈ gs) :
    g.event ∈ events ∧ g.due = g.event.fireAt zone := by
  have hlisted : (g.event, g.due) ∈ events.map fun ev => (ev, ev.fireAt zone) :=
    h ▸ List.mem_map_of_mem (f := fun g : Registration => (g.event, g.due)) hg
  obtain ⟨ev, hev, hsame⟩ := List.mem_map.1 hlisted
  obtain ⟨rfl, hdue⟩ := Prod.mk.inj hsame
  exact ⟨hev, hdue.symm⟩

namespace Engine

variable {zone : Zone} {rolloverTime : TimeOfDay} {e : Engine} {history : List Action}

theorem Orderly.remembers_append (horderly : e.Orderly zone rolloverTime history) {f : Engine}
    {later : List Action} (hnone : ∀ a ∈ later, a.ranAt? = none) (honward : e.clock ≤ f.clock)
    (hmemory : f.debounce.lastRun? Event.rolloverKey = e.debounce.lastRun? Event.rolloverKey) :
    f.Remembers (runTimes (history ++ later)) := by
  rw [runTimes_append_of_none hnone]
  exact horderly.remembers.keep honward hmemory

theorem Orderly.refusals_append (horderly : e.Orderly zone rolloverTime history)
    {later : List Action}
    (hnew : ∀ r elapsed, .suppressed r elapsed ∈ later → r.event.kind = .rollover →
      TooSoon (history ++ later) rolloverTime r elapsed)
    (r : Registration) (elapsed : Int) (hrefused : .suppressed r elapsed ∈ history ++ later)
    (hrolls : r.event.kind = .rollover) : TooSoon (history ++ later) rolloverTime r elapsed := by
  rcases List.mem_append.1 hrefused with hold | hrecent
  · exact (horderly.refusals r elapsed hold hrolls).append later
  · exact hnew r elapsed hrecent hrolls

/-- After a rebuild that keeps the promises, one rollover waits, and it is not due too soon. -/
theorem Orderly.rebuild (horderly : e.Orderly zone rolloverTime history) {inputs : Inputs}
    (hpromised : ∀ a ∈ (e.rebuild inputs).actions, a.keepsPromise) :
    (e.rebuild inputs).engine.Rolling zone rolloverTime
      (history ++ (e.rebuild inputs).actions) := by
  cases hloaded : inputs.load e.clock.date with
  | error reason =>
    rw [rebuild_of_error hloaded] at hpromised
    have hbroken := hpromised (.rebuildFailed reason) (by simp)
    cases hbroken
  | ok day =>
    have hentries := (schedules_rebuild hloaded).entries
    have hsound := (leadsTo_rebuild e inputs history).keep Moment.Step.sound horderly.sound
    have hqueues := queues_rebuild e inputs
    obtain ⟨gs, -, houtcome⟩ := rebuild_of_load hloaded
    have hclock : (e.rebuild inputs).engine.clock = e.clock := by
      rw [houtcome]
      exact clock_emptied e
    have hmemory : (e.rebuild inputs).engine.debounce.lastRun? Event.rolloverKey =
        e.debounce.lastRun? Event.rolloverKey := by
      rw [houtcome]
      exact lastRun?_prepared horderly.sound inputs
    have hsuccessor : e.clock.date.next?.isSome := by
      rw [houtcome] at hpromised
      exact hpromised (.rebuilt e.clock.date gs.length
        (day.schedule e.clock e.rolloverTime).skipped.length
          e.claimDue.2.registry.listing.length) (by simp)
    have hrebuilt : lapsed (history ++ (e.rebuild inputs).actions) = false := by
      rw [houtcome]
      simp [lapsed, List.foldl_append, Action.lapse]
    have hrollovers := hentries.filter fun ev => ev.kind = .rollover
    rw [DayInputs.schedule, DailySchedule.filter_rollover_events] at hrollovers
    obtain ⟨r, honly, hsame⟩ := List.map_eq_singleton_iff.1 hrollovers
    have hdue : r.due = _ := (Prod.mk.inj hsame).2
    exact
      { sound := hsound
        zone_eq := by rw [hclock, horderly.zone_eq]
        time_eq := by
          rw [houtcome]
          exact horderly.time_eq
        due_zone := by
          intro g hg
          rw [(hentries.due_eq hg).2, ← horderly.zone_eq]
          rfl
        willing := by
          rw [(Prod.mk.inj hqueues).2]
          exact horderly.willing
        remembers := by
          refine horderly.remembers_append (fun a hdone => ?_) ?_ hmemory
          · rcases mem_actions_rebuild hdone with ⟨h, -, f, d, hsettled, hreplaced⟩ | hunsettled
            · cases hsettled with
              | rolledOver hrolls => cases hreplaced hrolls
              | _ => rfl
            · cases a with
              | rolledOver => cases hunsettled
              | _ => rfl
          · rw [hclock]
            exact Instant.le_refl _
        refusals := horderly.refusals_append <| by
          intro g elapsed hnew hrolls
          rcases mem_actions_rebuild hnew with ⟨h, -, f, d, hsettled, hreplaced⟩ | hunsettled
          · cases hsettled with
            | suppressed => cases hreplaced hrolls
          · cases hunsettled
        reported := by
          intro g hg hwaits
          rw [(Prod.mk.inj hqueues).1] at hwaits
          cases hwaits
        lost := by
          intro h
          rw [hrebuilt] at h
          cases h
        waits := fun _ _ => ⟨r, honly⟩
        next := by
          intro g hg last hlast
          have hisOnly : g = r := List.mem_singleton.1 (honly ▸ hg)
          rw [hmemory] at hlast
          obtain ⟨ran, -, rfl, hbefore⟩ := horderly.remembers.exists_ran hlast
          -- The rebuild is not before the last run, and the deadline is after the coming midnight.
          have hbefore : ran.millis ≤ e.clock.millis := hbefore
          have hafter := lt_due_rollover hsuccessor rolloverTime
          rw [hisOnly, hdue, ← horderly.time_eq]
          rw [← horderly.time_eq] at hafter
          omega }

/-- What leaves the rollover alone keeps everything, when the clock goes on in its zone. -/
theorem Rolling.keep (hrolling : e.Rolling zone rolloverTime history) {f : Engine}
    {actions : List Action} (hsound : Moment.Sound ⟨f, [], history ++ actions⟩)
    (honward : e.clock ≤ f.clock) (hzone_eq : f.clock.zone = zone)
    (htime_eq : f.rolloverTime = e.rolloverTime)
    (hlive : ∀ r ∈ f.registry.live, r ∈ e.registry.live) (hwilling : .clear ∉ f.commands)
    (hmemory : f.debounce.lastRun? Event.rolloverKey = e.debounce.lastRun? Event.rolloverKey)
    (hrollovers : f.registry.rollovers = e.registry.rollovers)
    (hreported : ∀ r ∈ f.registry.live, r.fire ∈ f.fires → r.due ≤ f.clock)
    (hquiet : ∀ a ∈ actions, a.IsQuiet) :
    f.Rolling zone rolloverTime (history ++ actions) where
  sound := hsound
  zone_eq := hzone_eq
  time_eq := htime_eq.trans hrolling.time_eq
  due_zone r hr := hrolling.due_zone r (hlive r hr)
  willing := hwilling
  remembers := hrolling.remembers_append (fun a ha => (hquiet a ha).2.1) honward hmemory
  refusals := hrolling.refusals_append fun r elapsed hnew hrolls => by
    have hunchanged := (hquiet _ hnew).2.2 false
    simp [Action.lapse, hrolls] at hunchanged
  reported := hreported
  lost := by
    rw [lapsed_append_of_quiet hquiet, hrollovers]
    exact hrolling.lost
  waits := by
    rw [lapsed_append_of_quiet hquiet, started_append_of_quiet hquiet, hrollovers]
    exact hrolling.waits
  next := by
    rw [hmemory, hrollovers]
    exact hrolling.next

end Engine

namespace Registry

theorem rollovers_remove_of_plays (r : Registry) {g : Registration}
    (hplays : g.event.kind ≠ .rollover) : (r.remove g).rollovers = r.rollovers := by
  show (r.live.filter (· != g)).filter _ = r.live.filter _
  rw [List.filter_filter]
  apply List.filter_congr
  intro h _
  by_cases hrolls : h.event.kind = .rollover
  · have hother : h ≠ g := fun hsame => hplays (hsame ▸ hrolls)
    simp [hrolls, hother]
  · simp [hrolls]

theorem rollovers_remove_of_rolls {r : Registry} {reports : List Fire}
    (hbooks : r.Consistent reports) {g : Registration} (hg : g ∈ r.live)
    (hrolls : g.event.kind = .rollover) : (r.remove g).rollovers = [] := by
  apply List.filter_eq_nil_iff.2
  intro h hh
  obtain ⟨hh, hother⟩ := mem_remove.1 hh
  rw [decide_eq_true_eq]
  intro hrolls'
  have hsame : h.key = g.key :=
    ((hbooks.proper h hh).key_eq_rolloverKey_iff.2 hrolls').trans
      ((hbooks.proper g hg).key_eq_rolloverKey_iff.2 hrolls).symm
  exact hother (List.inj_on_of_nodup_map hbooks.keys_nodup hh hg hsame)

end Registry

end Muezzin
