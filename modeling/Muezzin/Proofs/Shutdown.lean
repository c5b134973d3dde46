import Muezzin.Proofs.Advance
import Muezzin.Proofs.Backlog

/-!
# The end of a session

The signal to stop is seen when nothing else waits. Then the loop cancels everything, so the engine
is left with no registration, no timer and no message, and the listeners have been told of the
beginning first and of the end last. What is still on its way at that moment, a report of a timer
that fired too late to be cancelled, matches nothing. Only a new request for a schedule brings the
engine back.
-/

namespace Muezzin

def Operation.asksRebuild : Operation → Bool
  | rebuild _ => true
  | request (.reschedule _) => true
  | _ => false

theorem Timeline.advanceTo_of_empty {t : Timeline Fire} (hempty : t.pending = [])
    (target : Instant) : t.advanceTo target = ([], t.moveClock target) := by
  apply advanceTo_of_none
  rw [popDue?, hempty]
  rfl

namespace Engine

/-- No timer and no registration is left, and nobody has asked for a schedule. Reports may wait. -/
structure Dormant (e : Engine) : Prop where
  live : e.registry.live = []
  pending : e.timers.pending = []
  commands : ∀ command ∈ e.commands, command = .clear

namespace Dormant

variable {e : Engine}

theorem clear (hdormant : e.Dormant) : e.clear.2.engine.Dormant where
  live := Registry.live_cancelAll _
  pending := by
    apply List.eq_nil_iff_forall_not_mem.2
    intro t ht
    have hwaits : t ∈ e.timers.pending := (Registry.mem_pending_cancelAll.1 ht).1
    rw [hdormant.pending] at hwaits
    cases hwaits
  commands := hdormant.commands

theorem advanceTo (hdormant : e.Dormant) (target : Instant) :
    (e.advanceTo target).1 = 0 ∧ (e.advanceTo target).2.Dormant := by
  have hnothing := Timeline.advanceTo_of_empty hdormant.pending target
  rw [Engine.advanceTo, hnothing]
  exact ⟨rfl, hdormant.live, hdormant.pending, hdormant.commands⟩

theorem handle (hdormant : e.Dormant) {message : Message} {rest : Engine}
    (hwaiting : e.nextMessage? = some (message, rest)) (inputs : Inputs) :
    (rest.handle inputs message).engine.Dormant ∧
      (rest.handle inputs message).actions.filterMap Action.delivery? = [] := by
  rcases nextMessage?_cases hwaiting with
    ⟨report, fires, -, rfl, rfl⟩ | ⟨command, commands, -, hfirst, rfl, rfl⟩
  · rcases handleFire_cases { e with fires } inputs report with ⟨-, houtcome⟩ | ⟨r, hlive, -⟩
    · rw [Engine.handle, houtcome]
      exact ⟨⟨hdormant.live, hdormant.pending, hdormant.commands⟩, rfl⟩
    · rw [hdormant.live] at hlive
      cases hlive
  · have hleft : ({ e with commands } : Engine).Dormant :=
      ⟨hdormant.live, hdormant.pending, fun other h =>
        hdormant.commands other (hfirst ▸ List.mem_cons_of_mem _ h)⟩
    rw [hdormant.commands command (hfirst ▸ List.mem_cons_self)]
    exact ⟨hleft.clear, rfl⟩

theorem processPending (hdormant : e.Dormant) (inputs : Inputs) :
    (e.processPending inputs).2.engine.Dormant ∧
      (e.processPending inputs).2.actions.filterMap Action.delivery? = [] := by
  refine processPending_induction
    (motive := fun e o => e.Dormant → o.engine.Dormant ∧ o.actions.filterMap Action.delivery? = [])
    (fun e _ hdormant => ⟨hdormant, rfl⟩) (fun e rest message hwaiting ih hdormant => ?_) e hdormant
  obtain ⟨hleft, hsilent⟩ := hdormant.handle hwaiting inputs
  obtain ⟨hlast, hlater⟩ := ih hleft
  refine ⟨hlast, ?_⟩
  rw [Outcome.actions_andThen, List.filterMap_append, hsilent, hlater]
  rfl

theorem perform (hdormant : e.Dormant) {op : Operation} (hmild : op.asksRebuild = false) :
    (e.perform op).engine.Dormant ∧ (e.perform op).actions.filterMap Action.delivery? = [] := by
  cases op with
  | rebuild => cases hmild
  | clear => exact ⟨hdormant.clear, rfl⟩
  | request command =>
    cases command with
    | reschedule => cases hmild
    | clear =>
      refine ⟨⟨hdormant.live, hdormant.pending, fun other h => ?_⟩, rfl⟩
      exact (List.mem_append.1 h).elim (hdormant.commands other) List.mem_singleton.1
  | next inputs =>
    rw [Engine.perform]
    split
    · next message rest hwaiting => exact hdormant.handle hwaiting inputs
    · exact ⟨hdormant, rfl⟩
  | process inputs => exact hdormant.processPending inputs
  | advanceTo target => exact ⟨(hdormant.advanceTo target).2, rfl⟩
  | setClock i => exact ⟨⟨hdormant.live, hdormant.pending, hdormant.commands⟩, rfl⟩

theorem run (hdormant : e.Dormant) {ops : List Operation}
    (hmild : ∀ op ∈ ops, op.asksRebuild = false) :
    (e.run ops).engine.Dormant ∧ (e.run ops).actions.filterMap Action.delivery? = [] := by
  induction ops generalizing e with
  | nil => exact ⟨hdormant, rfl⟩
  | cons op ops ih =>
    obtain ⟨hleft, hsilent⟩ := hdormant.perform (hmild op List.mem_cons_self)
    obtain ⟨hlast, hlater⟩ := ih hleft fun op' h => hmild op' (List.mem_cons_of_mem _ h)
    refine ⟨hlast, ?_⟩
    rw [run_cons, Outcome.actions_andThen, List.filterMap_append, hsilent, hlater]
    rfl

end Dormant

/-- Nothing waits, and whatever reports still come in, no timer fires and nothing is handed off
until a schedule is asked for. -/
structure Silent (e : Engine) : Prop where
  live : e.registry.live = []
  pending : e.timers.pending = []
  queues : e.queues = ([], [])
  unfired : ∀ late ops, (∀ op ∈ ops, op.asksRebuild = false) → ∀ target,
    ((({ e with fires := late } : Engine).run ops).engine.advanceTo target).1 = 0
  undelivered : ∀ late ops, (∀ op ∈ ops, op.asksRebuild = false) →
    (({ e with fires := late } : Engine).run ops).actions.filterMap Action.delivery? = []

/-- When an engine is cleared while no message waits, no timer survives. -/
theorem silent_clear {e : Engine} (hsound : e.Sound) (hqueues : e.queues = ([], [])) :
    e.clear.2.engine.Silent := by
  have hbooks : e.clear.2.engine.registry.Consistent [] := by
    have hkept := ((leadsTo_clear e).sound hsound).books
    have hfires : e.clear.2.engine.fires = [] := (Prod.mk.inj hqueues).1
    rwa [hfires] at hkept
  have hlive : e.clear.2.engine.registry.live = [] := Registry.live_cancelAll e.registry
  have hpending : e.clear.2.engine.timers.pending = [] := by
    apply List.length_eq_zero_iff.1
    rw [timers, hbooks.length_pending, hlive]
    rfl
  have hcommands : e.commands = [] := (Prod.mk.inj hqueues).2
  have hdormant (late : List Fire) : ({ e.clear.2.engine with fires := late } : Engine).Dormant :=
    ⟨hlive, hpending, fun command h => by
      have hnone : command ∈ e.commands := h
      rw [hcommands] at hnone
      cases hnone⟩
  exact
    { live := hlive, pending := hpending, queues := hqueues
      unfired := fun late ops hmild target => (((hdormant late).run hmild).1.advanceTo target).1
      undelivered := fun late ops hmild => ((hdormant late).run hmild).2 }

end Engine

/-- The action is neither the first nor the last of a session. -/
def Action.IsMiddle (a : Action) : Prop :=
  a ≠ .started ∧ a.isStop = false

theorem Action.IsAside.isMiddle {a : Action} (haside : a.IsAside) : a.IsMiddle := by
  refine ⟨?_, haside.stop⟩
  rintro rfl
  cases haside.prompt

namespace Engine

theorem isMiddle_rebuild (e : Engine) (inputs : Inputs) :
    ∀ a ∈ (e.rebuild inputs).actions, a.IsMiddle := by
  obtain ⟨before, later, hactions, hearly, hlate⟩ := e.actions_rebuild_attempt inputs
  intro a ha
  rw [hactions] at ha
  rcases List.mem_append.1 ha with ha | ha
  · exact (hearly a ha).isMiddle
  · rcases List.mem_cons.1 ha with rfl | ha
    · exact ⟨nofun, rfl⟩
    · exact (hlate a ha).isMiddle

theorem Response.isMiddle {e : Engine} {inputs : Inputs} {message : Message} {o : Outcome}
    (hresponse : e.Response inputs message o) : ∀ a ∈ o.actions, a.IsMiddle := by
  cases hresponse with
  | rest hkept hqueues haside => exact fun a ha => (haside a ha).isMiddle
  | @rollOver report f => exact List.forall_mem_cons.2 ⟨⟨nofun, rfl⟩, f.isMiddle_rebuild inputs⟩
  | reschedule reason => exact List.forall_mem_cons.2 ⟨⟨nofun, rfl⟩, e.isMiddle_rebuild inputs⟩
  | clear => simp [Action.IsMiddle, Action.isStop]

end Engine

namespace Session

variable {s : Session}

theorem signalled_next (hsignalled : s.signalled = true) (h : Happening) :
    (s.next h).signalled = true := by
  cases h with
  | setPrayers | setFlags | notify | request | fire | setClock => exact hsignalled
  | signal => rfl
  | turn told =>
    have hturn := s.turn_turn told
    rw [next, perform]
    generalize s.turn told = p at hturn
    cases hturn <;> exact hsignalled

theorem signalled_after (hsignalled : s.signalled = true) (hs : List Happening) :
    (s.after hs).signalled = true := by
  induction hs generalizing s with
  | nil => exact hsignalled
  | cons h hs ih => exact ih (signalled_next hsignalled h)

theorem mem_of_signalled {hs : List Happening} (hsignalled : (s.after hs).signalled = true) :
    s.signalled = true ∨ .signal ∈ hs := by
  induction hs generalizing s with
  | nil => exact .inl hsignalled
  | cons h hs ih =>
    rcases ih hsignalled with hbefore | hlater
    · cases h with
      | setPrayers | setFlags | notify | request | fire | setClock => exact .inl hbefore
      | signal => exact .inr List.mem_cons_self
      | turn told =>
        have hturn := s.turn_turn told
        rw [next, perform] at hbefore
        generalize s.turn told = p at hturn hbefore
        refine .inl ?_
        cases hturn <;> exact hbefore
    · exact .inr (List.mem_cons_of_mem _ hlater)

theorem closed_next (hclosed : s.phase = .closed) (h : Happening) : (s.next h).phase = .closed := by
  cases h with
  | setPrayers | setFlags | notify | request | fire | setClock | signal => exact hclosed
  | turn told =>
    rw [next, perform, turn_of_closed hclosed]
    exact hclosed

theorem closed_after (hclosed : s.phase = .closed) (hs : List Happening) :
    (s.after hs).phase = .closed := by
  induction hs generalizing s with
  | nil => exact hclosed
  | cons h hs ih => exact ih (closed_next hclosed h)

/-- A session ends in a turn in which nothing waits any more and the signal has come. -/
theorem turn_closes {told : Telling} (hrunning : s.phase ≠ .closed)
    (hcloses : (s.turn told).1.phase = .closed) :
    s.Idle ∧ s.signalled = true ∧ s.turn told =
      ({ s with engine := s.engine.clear.2.engine, phase := .closed },
        [.signalled, .cancelled s.engine.registry.listing, .stopped s.engine.clear.1]) := by
  have hturn := s.turn_turn told
  generalize s.turn told = p at hturn hcloses ⊢
  cases hturn with
  | opening => cases hcloses
  | message hphase => exact absurd hcloses hrunning
  | change hphase => exact absurd hcloses hrunning
  | close hidle hsignalled => exact ⟨hidle, hsignalled, rfl⟩
  | wait => exact absurd hcloses hrunning

/-- As long as turns come, the loop ends after the signal. -/
theorem ends (hwatches : s.Watches) (hsignalled : s.signalled = true) {tellings : List Telling}
    (henough : s.toDo < tellings.length) : (s.after (tellings.map .turn)).phase = .closed := by
  by_cases hrunning : s.phase = .closed
  · exact closed_after hrunning _
  · obtain ⟨k, hfew, hidle⟩ := rests hwatches hrunning (Nat.le_of_lt henough)
    have hhere : k < tellings.length := Nat.lt_of_le_of_lt hfew henough
    have hsplit : tellings.map Happening.turn = (tellings.take k).map .turn ++
        .turn tellings[k] :: (tellings.drop (k + 1)).map .turn := by
      rw [← List.map_cons, ← List.map_append, ← List.drop_eq_getElem_cons hhere,
        List.take_append_drop]
    rw [hsplit, after_append, after_cons]
    refine closed_after ?_ _
    rw [next, perform, turn_of_signalled hidle (signalled_after hsignalled _)]

theorem middle_of_serving {hs : List Happening} (hserving : s.phase = .serving)
    (hrunning : (s.after hs).phase ≠ .closed) : ∀ a ∈ s.actions hs, a.IsMiddle := by
  induction hs generalizing s with
  | nil => exact List.forall_mem_nil _
  | cons h hs ih =>
    cases h with
    | setPrayers | setFlags | notify | request | fire | setClock | signal =>
      exact ih hserving hrunning
    | turn told =>
      have hgoesOn : (s.turn told).1.phase = .serving ∧ ∀ a ∈ (s.turn told).2, a.IsMiddle := by
        have hstillRuns : (s.turn told).1.phase ≠ .closed := fun hclosed =>
          hrunning (closed_after hclosed hs)
        have hturn := s.turn_turn told
        generalize s.turn told = p at hturn hstillRuns ⊢
        cases hturn with
        | opening hphase =>
          rw [hphase] at hserving
          cases hserving
        | @message message rest =>
          exact ⟨hserving, (rest.response_handle (told.inputs s.settings.store) message).isMiddle⟩
        | change =>
          exact ⟨hserving, List.forall_mem_cons.2 ⟨⟨nofun, rfl⟩, Engine.isMiddle_rebuild _ _⟩⟩
        | close => exact absurd rfl hstillRuns
        | wait => exact ⟨hserving, List.forall_mem_nil _⟩
      exact List.forall_mem_append.2 ⟨hgoesOn.2, ih hgoesOn.1 hrunning⟩

theorem begins {hs : List Happening} (hopening : s.phase = .opening)
    (hserving : (s.after hs).phase = .serving) :
    ∃ middle, s.actions hs = .started :: middle ∧ ∀ a ∈ middle, a.IsMiddle := by
  induction hs generalizing s with
  | nil =>
    have hsame : s.phase = .serving := hserving
    rw [hopening] at hsame
    cases hsame
  | cons h hs ih =>
    cases h with
    | setPrayers | setFlags | notify | request | fire | setClock | signal =>
      exact ih hopening hserving
    | turn told =>
      have hfirst : (s.turn told).1.phase = .serving ∧ (s.turn told).2 =
          .started :: (s.engine.rebuild (told.inputs s.settings.store)).actions := by
        simp only [turn, hopening, Loop.start, true_and]
      have hlater : ∀ a ∈ (s.turn told).1.actions hs, a.IsMiddle :=
        middle_of_serving hfirst.1 (by
          show (s.after (.turn told :: hs)).phase ≠ .closed
          rw [hserving]
          decide)
      refine ⟨(s.engine.rebuild (told.inputs s.settings.store)).actions ++
        (s.turn told).1.actions hs, ?_, ?_⟩
      · rw [actions, perform, hfirst.2]
        rfl
      · exact List.forall_mem_append.2 ⟨Engine.isMiddle_rebuild _ _, hlater⟩

end Session

theorem Action.IsMiddle.event? {a : Action} (hmiddle : a.IsMiddle) :
    a.event? ≠ some .started ∧ ∀ reason, a.event? ≠ some (.stopped reason) := by
  obtain ⟨hnotFirst, hnotLast⟩ := hmiddle
  cases a with
  | started => exact absurd rfl hnotFirst
  | stopped => cases hnotLast
  | _ => exact ⟨nofun, nofun⟩

namespace Session

/-- The loop ends once it is told to and gets enough turns. Before, it has handled everything that
waited at any moment, in particular when the signal came: first what has been reported, then the
requests, then the changes. In the end nothing waits or will come back by itself. Listeners are told
of the start first and of the end last, and of each only once. -/
theorem orderly_shutdown {engine : Engine} (harises : engine.Arises) (settings : MemorySettings) :
    let s := enter engine settings
    (∀ hs (tellings : List Telling), (s.after hs).signalled = true →
      (s.after hs).toDo < tellings.length →
      (s.after (hs ++ tellings.map .turn)).phase = .closed) ∧
    ∀ hs told, (s.after hs).phase ≠ .closed → (s.after (hs ++ [.turn told])).phase = .closed →
      .signal ∈ hs ∧
      (∀ before later, hs = before ++ later → (s.after before).HandlesBacklog later) ∧
      (s.after (hs ++ [.turn told])).engine.Silent ∧
      ∃ middle, (s.actions (hs ++ [.turn told])).filterMap Action.event? =
          .started :: (middle ++ [.stopped "Shutdown signal"]) ∧
        .started ∉ middle ∧ ∀ reason, .stopped reason ∉ middle := by
  intro s
  have hwatches : s.Watches := watches_enter engine settings
  have hsound : s.engine.Sound := harises.sound
  refine ⟨fun hs tellings hsignalled henough => ?_, fun hs told hrunning hcloses => ?_⟩
  · rw [after_append]
    exact ends (hwatches.after hs) hsignalled henough
  · rw [after_append] at hcloses ⊢
    obtain ⟨hidle, hsignalled, hturn⟩ := turn_closes hrunning hcloses
    refine ⟨(mem_of_signalled hsignalled).resolve_left nofun, ?_, ?_, ?_⟩
    · rintro before later rfl
      rw [after_append] at hidle
      exact hidle.handlesBacklog (hwatches.after before) (sound_after hsound before)
    · show ((s.after hs).turn told).1.engine.Silent
      rw [hturn]
      exact Engine.silent_clear (sound_after hsound hs)
        (by rw [Engine.queues, hidle.fires, hidle.commands])
    · obtain ⟨middle, hactions, hmiddle⟩ := begins (s := s) rfl hidle.1
      have hlast : (s.after hs).actions [.turn told] =
          [.signalled, .cancelled (s.after hs).engine.registry.listing,
            .stopped (s.after hs).engine.clear.1] := by
        rw [Session.actions, perform, hturn]
        rfl
      refine ⟨middle.filterMap Action.event?, ?_, fun htold => ?_, fun reason htold => ?_⟩
      · rw [actions_append, hactions, hlast, List.filterMap_append]
        rfl
      · obtain ⟨a, ha, hsame⟩ := List.mem_filterMap.1 htold
        exact (hmiddle a ha).event?.1 hsame
      · obtain ⟨a, ha, hsame⟩ := List.mem_filterMap.1 htold
        exact (hmiddle a ha).event?.2 reason hsame

/-- When the signal comes, an announcement has been reported, two requests and a change wait, and
the last of the schedules that are still built for them is the one that is cancelled. -/
theorem orderly_shutdown_backlog :
    ∃ e, Engine.new {} ⟨0, .utc⟩ = .ok e ∧ ∃ before later told,
      let s := enter e .empty
      (∃ r ∈ (s.after before).engine.registry.live, r.event.kind = .announcement ∧
        r.fire ∈ (s.after before).engine.fires) ∧
      (s.after before).engine.commands.length = 2 ∧
      (s.after before).feed.drain = [.prayerSource] ∧
      (s.after (before ++ .signal :: later)).engine.registry.size = 3 ∧
      (s.after (before ++ .signal :: later)).phase ≠ .closed ∧
      (s.after (before ++ .signal :: later ++ [.turn told])).phase = .closed ∧
      (s.after before).HandlesBacklog (.signal :: later) ∧
      (s.after (before ++ .signal :: later ++ [.turn told])).engine.Silent := by
  obtain ⟨e, hcreated⟩ : ∃ e, Engine.new {} ⟨0, .utc⟩ = .ok e := ⟨_, rfl⟩
  let told := Telling.daily .maghrib ⟨1080, by decide⟩
  let r : Registration := ⟨8, 8, .announcement .maghrib ⟨0⟩ ⟨1065, by decide⟩, ⟨63900000, .utc⟩⟩
  let before := Happening.opening .maghrib told ++
    [.fire r.alarm, .request .clear, .request (.reschedule "again"), .notify .prayerSource]
  let later : List Happening := [.turn told, .turn told, .turn told, .turn told]
  have hstart := (Engine.new_eq hcreated).2
  have hlive : ((enter e .empty).after before).engine.registry.live[1]? = some r := by
    rw [hstart]; cbv
  have hreported : ((enter e .empty).after before).engine.fires[0]? = some r.fire := by
    rw [hstart]; cbv
  have hserving : ((enter e .empty).after (before ++ .signal :: later)).phase = .serving := by
    rw [hstart]; cbv
  have hrunning : ((enter e .empty).after (before ++ .signal :: later)).phase ≠ .closed := by
    rw [hserving]
    decide
  have hclosed : ((enter e .empty).after (before ++ .signal :: later ++ [.turn told])).phase =
      .closed := by
    rw [hstart]; cbv
  obtain ⟨-, hended⟩ := orderly_shutdown (.new hcreated) .empty
  obtain ⟨-, hhandles, hsilent, -⟩ := hended (before ++ .signal :: later) told hrunning hclosed
  refine ⟨e, hcreated, before, later, told, ⟨r, List.mem_of_getElem? hlive, rfl,
    List.mem_of_getElem? hreported⟩, ?_, ?_, ?_, hrunning, hclosed, hhandles before _ rfl, hsilent⟩
  · rw [hstart]; cbv
  · rw [hstart]; cbv
  · rw [hstart]; cbv

end Session

end Muezzin
