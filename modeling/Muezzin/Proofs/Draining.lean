import Muezzin.Proofs.Backlog
import Muezzin.Proofs.HandDriving
import Muezzin.Proofs.Replacement

/-!
# Until both queues are empty

Messages are handled one after another until none waits. The reports come first, in their order, up
to one that claims a rollover: the rebuild that it starts takes up all reports that are left. Then
the requests follow in their order, and since a rebuild leaves no report behind, none comes between
them. What waits in the end is therefore what the last request wanted, whatever there was before.
-/

namespace Muezzin

namespace Engine

def afterTurns (e : Engine) (inputs : Inputs) (n : Nat) : Engine :=
  (e.run (List.replicate n (.next inputs))).engine

/-- The first report claims a rollover that may run, so handling it rebuilds. -/
def RollsOver (e : Engine) (inputs : Inputs) : Prop :=
  ∃ r fires, r ∈ e.registry.live ∧ e.fires = r.fire :: fires ∧ r.event.kind = .rollover ∧
    e.debounce.allows r.key e.clock.millis ∧
    e.perform (.next inputs) =
      (⟨{ e.claimed r fires with debounce := e.debounce.stamp r.key e.clock.millis },
        [.rolledOver r e.clock]⟩ : Outcome).andThen (rebuild · inputs)

/-- All messages are handled: `handled` are the reports that got a turn of their own, and `drained`
those that were left to a rebuild. -/
structure Drains (e : Engine) (inputs : Inputs) (handled drained : List Fire) : Prop where
  split : e.fires = handled ++ drained
  /-- The reports get their turns in order, and all requests wait meanwhile. -/
  reports : ∀ n < handled.length,
    (e.afterTurns inputs n).queues = (handled.drop n ++ drained, e.commands)
  /-- Only the last of these turns can leave reports to a rebuild. -/
  rolled : drained = [] ∨
    ∃ early last, handled = early ++ [last] ∧ (e.afterTurns inputs early.length).RollsOver inputs
  /-- Then the requests get theirs, and no report waits meanwhile. -/
  requests : ∀ n ≤ e.commands.length,
    (e.afterTurns inputs (handled.length + n)).queues = ([], e.commands.drop n)
  result : e.processPending inputs = (handled.length + e.commands.length,
    e.run (List.replicate (handled.length + e.commands.length) (.next inputs)))

/-- What waits after all messages is what the last request wanted. -/
structure Obeys (e : Engine) (inputs : Inputs) (o : Outcome) : Prop where
  queues : o.engine.queues = ([], [])
  clock : o.engine.clock = e.clock
  cleared : e.commands.getLast? = some .clear →
    o.engine.registry.live = [] ∧ o.engine.timers.pending = []
  /-- Any engine with this clock would have the same schedule after a rebuild. -/
  rebuilt : ∀ reason, e.commands.getLast? = some (.reschedule reason) →
    o.engine.timers.pending = o.engine.registry.live.map Registration.alarm ∧
    ∀ f : Engine, f.clock = e.clock → f.rolloverTime = e.rolloverTime →
      o.engine.registry.live.map (fun r => (r.event, r.due)) =
        (f.rebuild inputs).engine.registry.live.map fun r => (r.event, r.due)

section Turns

variable {e : Engine} {inputs : Inputs}

theorem afterTurns_succ (e : Engine) (inputs : Inputs) (n : Nat) :
    e.afterTurns inputs (n + 1) = (e.perform (.next inputs)).engine.afterTurns inputs n := rfl

theorem afterTurns_add (e : Engine) (inputs : Inputs) (m n : Nat) :
    e.afterTurns inputs (m + n) = (e.afterTurns inputs m).afterTurns inputs n := by
  rw [afterTurns, List.replicate_add, engine_run_append]
  rfl

/-- A report leaves the other reports alone, or a rebuild takes all of them. -/
theorem queues_next_of_fires {report : Fire} {fires : List Fire}
    (hwaiting : e.fires = report :: fires) (inputs : Inputs) :
    (e.perform (.next inputs)).engine.queues = (fires, e.commands) ∨
      e.RollsOver inputs ∧ (e.perform (.next inputs)).engine.queues = ([], e.commands) := by
  have hfirst := perform_next_of_fires hwaiting inputs
  rcases handleFire_cases { e with fires } inputs report with
    ⟨-, houtcome⟩ | ⟨r, hlive, rfl, ⟨-, d, a, -, houtcome⟩ | ⟨hrolls, houtcome⟩⟩
  · rw [hfirst, houtcome]
    exact .inl rfl
  · rw [hfirst, houtcome]
    exact .inl rfl
  · rw [houtcome] at hfirst
    by_cases hallowed : (e.claimed r fires).debounce.allows r.key (e.claimed r fires).clock.millis
    · have hrolled := hfirst.trans (rollOver_of_allows hallowed inputs)
      refine .inr ⟨⟨r, fires, hlive, hwaiting, hrolls, hallowed, hrolled⟩, ?_⟩
      rw [hrolled]
      exact queues_rebuild _ inputs
    · have hrefused := hfirst.trans (rollOver_of_not_allows hallowed inputs)
      rw [hrefused]
      exact .inl rfl

theorem queues_next_of_commands {command : Command} {commands : List Command}
    (hunreported : e.fires = []) (hwaiting : e.commands = command :: commands) (inputs : Inputs) :
    (e.perform (.next inputs)).engine.queues = ([], commands) := by
  rw [perform_next_of_commands hunreported hwaiting]
  cases command with
  | reschedule reason => exact queues_rebuild _ inputs
  | clear => exact Prod.ext hunreported rfl

/-- The reports get their turns, up to one that rebuilds. -/
theorem exists_handled (e : Engine) (inputs : Inputs) :
    ∃ handled drained, e.fires = handled ++ drained ∧
      (∀ n < handled.length,
        (e.afterTurns inputs n).queues = (handled.drop n ++ drained, e.commands)) ∧
      (drained = [] ∨ ∃ early last, handled = early ++ [last] ∧
        (e.afterTurns inputs early.length).RollsOver inputs) ∧
      (e.afterTurns inputs handled.length).queues = ([], e.commands) := by
  induction hwaiting : e.fires generalizing e with
  | nil =>
    exact ⟨[], [], rfl, fun n hshort => absurd hshort (Nat.not_lt_zero n), .inl rfl,
      Prod.ext hwaiting rfl⟩
  | cons report fires ih =>
    let next := (e.perform (.next inputs)).engine
    rcases queues_next_of_fires hwaiting inputs with hqueues | ⟨hrolls, hqueues⟩
    · obtain ⟨handled, drained, hsplit, hreports, hrolled, hlast⟩ := ih next (Prod.mk.inj hqueues).1
      have hcommands : next.commands = e.commands := (Prod.mk.inj hqueues).2
      rw [hcommands] at hreports hlast
      refine ⟨report :: handled, drained, congrArg _ hsplit, fun n hshort => ?_, ?_, hlast⟩
      · cases n with
        | zero => exact Prod.ext (hwaiting.trans (congrArg _ hsplit)) rfl
        | succ n => exact hreports n (Nat.lt_of_succ_lt_succ hshort)
      · rcases hrolled with hnone | ⟨early, final, rfl, hrolls⟩
        · exact .inl hnone
        · exact .inr ⟨report :: early, final, rfl, hrolls⟩
    · refine ⟨[report], fires, rfl, fun n hshort => ?_, .inr ⟨[], report, rfl, hrolls⟩, hqueues⟩
      rw [List.length_singleton, Nat.lt_one_iff] at hshort
      subst hshort
      exact Prod.ext hwaiting rfl

theorem queues_afterTurns_of_unreported (hunreported : e.fires = []) (n : Nat) :
    (e.afterTurns inputs n).queues = ([], e.commands.drop n) := by
  induction n generalizing e with
  | zero => exact Prod.ext hunreported rfl
  | succ n ih =>
    rw [afterTurns_succ]
    cases hwaiting : e.commands with
    | nil =>
      have hidle : e.nextMessage? = none :=
        nextMessage?_eq_none_iff.2 (Prod.ext hunreported hwaiting)
      rw [perform_next_of_idle hidle, ih hunreported, hwaiting, List.drop_nil, List.drop_nil]
    | cons command commands =>
      have hqueues := queues_next_of_commands hunreported hwaiting inputs
      rw [ih (Prod.mk.inj hqueues).1, (Prod.mk.inj hqueues).2, List.drop_succ_cons]

theorem count_processPending_of_turns {n : Nat}
    (hbusy : ∀ m < n, (e.afterTurns inputs m).nextMessage? ≠ none)
    (hidle : (e.afterTurns inputs n).nextMessage? = none) :
    (e.processPending inputs).1 = n := by
  induction n generalizing e with
  | zero =>
    have hhere : e.nextMessage? = none := hidle
    rw [processPending_none hhere]
  | succ n ih =>
    cases hwaiting : e.nextMessage? with
    | none => exact absurd hwaiting (hbusy 0 (Nat.succ_pos n))
    | some p =>
      obtain ⟨message, rest⟩ := p
      have hfirst : e.perform (.next inputs) = rest.handle inputs message := by
        rw [perform, hwaiting]
      rw [count_processPending hwaiting, ← hfirst]
      congr 1
      exact ih (fun m hshort => hbusy (m + 1) (Nat.succ_lt_succ hshort)) hidle

theorem exists_drains (e : Engine) (inputs : Inputs) :
    ∃ handled drained, e.Drains inputs handled drained := by
  obtain ⟨handled, drained, hsplit, hreports, hrolled, hlast⟩ := exists_handled e inputs
  have hrequests (n : Nat) :
      (e.afterTurns inputs (handled.length + n)).queues = ([], e.commands.drop n) := by
    rw [afterTurns_add, queues_afterTurns_of_unreported (Prod.mk.inj hlast).1,
      (Prod.mk.inj hlast).2]
  have hbusy : ∀ m < handled.length + e.commands.length,
      (e.afterTurns inputs m).nextMessage? ≠ none := by
    intro m hshort hidle
    have hempty := nextMessage?_eq_none_iff.1 hidle
    rcases Nat.lt_or_ge m handled.length with hearly | hlate
    · rw [hreports m hearly] at hempty
      have hnone := (List.append_eq_nil_iff.1 (Prod.mk.inj hempty).1).1
      exact absurd hearly (Nat.not_lt.2 (List.drop_eq_nil_iff.1 hnone))
    · obtain ⟨n, rfl⟩ := Nat.exists_eq_add_of_le hlate
      rw [hrequests n] at hempty
      have hnone := List.drop_eq_nil_iff.1 (Prod.mk.inj hempty).2
      omega
  have hidle : (e.afterTurns inputs (handled.length + e.commands.length)).nextMessage? = none := by
    rw [nextMessage?_eq_none_iff, hrequests, List.drop_length]
  have hcount := count_processPending_of_turns hbusy hidle
  refine ⟨handled, drained, hsplit, hreports, hrolled, fun n _ => hrequests n, ?_⟩
  rw [← hcount, run_replicate_next]

end Turns

/-! ### The last request -/

theorem clock_handleFire (e : Engine) (inputs : Inputs) (report : Fire) :
    (e.handleFire inputs report).engine.clock = e.clock ∧
      (e.handleFire inputs report).engine.rolloverTime = e.rolloverTime := by
  rcases handleFire_cases e inputs report with
    ⟨-, houtcome⟩ | ⟨r, -, -, ⟨-, d, a, -, houtcome⟩ | ⟨-, houtcome⟩⟩
  · rw [houtcome]
    exact ⟨rfl, rfl⟩
  · rw [houtcome]
    exact ⟨rfl, rfl⟩
  · rw [houtcome]
    let f : Engine := { e with registry := e.registry.remove r }
    by_cases hallowed : f.debounce.allows r.key f.clock.millis
    · rw [rollOver_of_allows hallowed]
      exact ⟨clock_rebuild _ inputs, rolloverTime_rebuild _ inputs⟩
    · rw [rollOver_of_not_allows hallowed]
      exact ⟨rfl, rfl⟩

theorem clock_handleCommand (e : Engine) (inputs : Inputs) (command : Command) :
    (e.handleCommand inputs command).engine.clock = e.clock ∧
      (e.handleCommand inputs command).engine.rolloverTime = e.rolloverTime := by
  cases command with
  | reschedule reason => exact ⟨clock_rebuild e inputs, rolloverTime_rebuild e inputs⟩
  | clear =>
    refine ⟨?_, rfl⟩
    show (e.registry.dropAll _).timers.clock = _
    rw [Registry.dropAll_eq]
    rfl

/-- Handling messages takes no time. -/
theorem clock_afterTurns (e : Engine) (inputs : Inputs) (n : Nat) :
    (e.afterTurns inputs n).clock = e.clock ∧
      (e.afterTurns inputs n).rolloverTime = e.rolloverTime := by
  induction n generalizing e with
  | zero => exact ⟨rfl, rfl⟩
  | succ n ih =>
    rw [afterTurns_succ, (ih _).1, (ih _).2]
    cases hwaiting : e.nextMessage? with
    | none =>
      rw [perform_next_of_idle hwaiting]
      exact ⟨rfl, rfl⟩
    | some p =>
      obtain ⟨message, rest⟩ := p
      rcases nextMessage?_cases hwaiting with
        ⟨report, fires, hreported, -, -⟩ | ⟨command, commands, hunreported, hasked, -, -⟩
      · rw [perform_next_of_fires hreported]
        exact clock_handleFire { e with fires } inputs report
      · rw [perform_next_of_commands hunreported hasked]
        exact clock_handleCommand { e with commands } inputs command

/-- The last turn carries out the last request, and no report waits then. -/
theorem Drains.last_turn {e : Engine} {inputs : Inputs} {handled drained : List Fire}
    (hdrains : e.Drains inputs handled drained) {command : Command}
    (hwanted : e.commands.getLast? = some command) :
    ∃ n, (e.processPending inputs).2.engine =
      (({ e.afterTurns inputs n with commands := [] } : Engine).handleCommand inputs
        command).engine := by
  obtain ⟨earlier, hall⟩ := List.getLast?_eq_some_iff.1 hwanted
  have hlength : e.commands.length = earlier.length + 1 := by rw [hall, List.length_append]; rfl
  refine ⟨handled.length + earlier.length, ?_⟩
  have hqueues := hdrains.requests earlier.length (by omega)
  rw [hall, List.drop_left] at hqueues
  rw [hdrains.result, hlength, ← Nat.add_assoc]
  show e.afterTurns inputs (handled.length + earlier.length + 1) = _
  rw [afterTurns_add, afterTurns_succ, perform_next_of_commands (Prod.mk.inj hqueues).1
    (Prod.mk.inj hqueues).2]
  rfl

theorem Drains.obeys {e : Engine} {inputs : Inputs} {handled drained : List Fire}
    (hdrains : e.Drains inputs handled drained) (hsound : e.Sound) :
    e.Obeys inputs (e.processPending inputs).2 where
  queues := queues_processPending e inputs
  clock := by
    rw [hdrains.result]
    exact (clock_afterTurns e inputs _).1
  cleared hwanted := by
    obtain ⟨n, hlast⟩ := hdrains.last_turn hwanted
    have hlive : (e.processPending inputs).2.engine.registry.live = [] := by
      rw [hlast]
      exact Registry.live_cancelAll _
    refine ⟨hlive, List.eq_nil_iff_forall_not_mem.2 fun timer hwaits => ?_⟩
    have howned : (e.processPending inputs).2.engine.TimersOwned := by
      rw [hdrains.result]
      exact timersOwned_of_books ((leadsTo_run e _).sound hsound).books
    obtain ⟨r, hlisted, -⟩ := howned timer hwaits
    rw [hlive] at hlisted
    cases hlisted
  rebuilt reason hwanted := by
    obtain ⟨n, hlast⟩ := hdrains.last_turn hwanted
    obtain ⟨hclock, hrolloverTime⟩ := clock_afterTurns e inputs n
    let f : Engine := { e.afterTurns inputs n with commands := [] }
    have howned : f.TimersOwned :=
      timersOwned_of_books ((leadsTo_run e (List.replicate n (.next inputs))).sound hsound).books
    have hbuilt : (e.processPending inputs).2.engine = (f.rebuild inputs).engine := hlast
    rw [hbuilt]
    refine ⟨pending_rebuild howned inputs, fun g hsameClock hsameTime => ?_⟩
    exact entries_rebuild (f := f) (e := g) (hclock.trans hsameClock.symm)
      (hrolloverTime.trans hsameTime.symm) inputs

/-- Handling all messages comes to an end and leaves none. Each report has a turn of its own unless
a rebuild takes it up, all of them come before the requests, and the last request decides what
waits. -/
theorem processPending_drains {e : Engine} (harises : e.Arises) (inputs : Inputs) :
    ∃ handled drained, e.Drains inputs handled drained ∧
      e.Obeys inputs (e.processPending inputs).2 := by
  obtain ⟨handled, drained, hdrains⟩ := exists_drains e inputs
  exact ⟨handled, drained, hdrains, hdrains.obeys harises.sound⟩

/-- On the last date of the calendar the rollover reports first, so a rebuild takes up the other two
reports. The requests to clear and to build again come after it. -/
theorem processPending_drains_rollover :
    ∃ e : Engine, e.Arises ∧ e.fires.length = 3 ∧
      e.commands = [.clear, .reschedule "again"] ∧
      (e.processPending (.daily .isha ⟨1200, by decide⟩)).1 = 3 ∧
      (e.processPending (.daily .isha ⟨1200, by decide⟩)).2.engine.registry.size = 3 ∧
      ∃ handled drained, e.Drains (.daily .isha ⟨1200, by decide⟩) handled drained ∧
        e.Obeys (.daily .isha ⟨1200, by decide⟩)
          (e.processPending (.daily .isha ⟨1200, by decide⟩)).2 := by
  obtain ⟨new, hcreated⟩ : ∃ e, Engine.new {} (.ofLocal .last 0 .utc) = .ok e := ⟨_, rfl⟩
  let e := (new.run [.rebuild (.daily .maghrib ⟨1080, by decide⟩),
    .advanceTo (.ofLocal .last 64800000 .utc), .request .clear,
    .request (.reschedule "again")]).engine
  have harises : e.Arises := .run (.new hcreated) _
  have hdrains := processPending_drains harises (.daily .isha ⟨1200, by decide⟩)
  obtain ⟨-, rfl⟩ := new_eq hcreated
  refine ⟨e, harises, by cbv, by cbv, ?_, ?_, hdrains⟩
  · simp only [e]
    cbv
  · simp only [e]
    cbv

end Engine

end Muezzin
