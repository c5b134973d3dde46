import Muezzin.Proofs.Sessions
import Muezzin.Proofs.Turns

/-!
# The loop and the hand agree

The loop and whoever handles the messages of an engine by hand look for the next message in
different places, and only the loop knows changes and the signal to stop. While neither of these
comes, a turn of the loop is one message handled by hand, so the loop comes to rest where the hand
does and has done the same on the way. This holds whatever the messages are and however the answers
to the questions that they raise differ from turn to turn.
-/

namespace Muezzin

namespace Engine

theorem queues_processPending (e : Engine) (inputs : Inputs) :
    (e.processPending inputs).2.engine.queues = ([], []) :=
  processPending_induction (motive := fun _ o => o.engine.queues = ([], []))
    (fun _ hidle => nextMessage?_eq_none_iff.1 hidle) (fun _ _ _ _ ih => ih) e

/-- Handled one by one until none is left, the messages are handled as all at once. -/
theorem run_next_of_idle {e : Engine} {inputs : Inputs} {n : Nat}
    (hidle : (e.run (List.replicate n (.next inputs))).engine.nextMessage? = none) :
    e.run (List.replicate n (.next inputs)) = (e.processPending inputs).2 := by
  induction n generalizing e with
  | zero =>
    have hhere : e.nextMessage? = none := hidle
    rw [processPending_none hhere]
    rfl
  | succ n ih =>
    rw [List.replicate_succ, run_cons] at hidle ⊢
    cases hwaiting : e.nextMessage? with
    | none =>
      have hnothing : e.perform (.next inputs) = ⟨e, []⟩ := by rw [perform, hwaiting]
      rw [hnothing] at hidle ⊢
      rw [← ih hidle]
      rfl
    | some p =>
      obtain ⟨message, rest⟩ := p
      have hfirst : e.perform (.next inputs) = rest.handle inputs message := by
        rw [perform, hwaiting]
      rw [hfirst] at hidle ⊢
      rw [processPending_some hwaiting, Outcome.andThen, ih hidle]
      rfl

end Engine

namespace Loop

theorem settle_eq_processPending (e : Engine) {feed : ChangeFeed} (hseen : feed.size = 0)
    (inputs : Inputs) :
    (⟨e, feed⟩ : Loop).settle inputs =
      (⟨(e.processPending inputs).2.engine, feed⟩, (e.processPending inputs).2.actions) := by
  refine Engine.processPending_induction
    (motive := fun e o => (⟨e, feed⟩ : Loop).settle inputs = (⟨o.engine, feed⟩, o.actions))
    (fun e hidle => ?_) (fun e rest message hwaiting ih => ?_) e
  · have hnothing := ChangeFeed.next?_eq_none_iff.2 hseen
    exact settle_of_none (by simp only [turn?, hidle, hnothing])
  · rw [settle_of_some (l := ⟨e, feed⟩) (by simp only [turn?, hwaiting]; rfl), ih]
    rfl

end Loop

/-- A running loop that has seen all changes reacts as if its messages were handled by hand. -/
theorem LiveRehearsal.react_eq_process {l : LiveRehearsal} (hrunning : l.running = true)
    (hquiet : l.signalled = false)
    (hseen : ∀ feed ∈ l.world.settings.watchers, feed = .empty) :
    l.react = { l with world := l.world.process.2.runDeliveries } := by
  have hempty : feed l.world = .empty := by
    rw [feed]
    cases hwatchers : l.world.settings.watchers with
    | nil => rfl
    | cons feed watchers => exact hseen feed (by rw [hwatchers]; exact List.mem_cons_self)
  have hsame : l.world.settings.watchers.map (fun _ => ChangeFeed.empty) =
      l.world.settings.watchers :=
    (List.map_congr_left fun feed h => (hseen feed h).symm).trans (List.map_id' _)
  have hsettled := Loop.settle_eq_processPending l.world.engine
    (rfl : ChangeFeed.empty.size = 0) l.world.inputs
  have hrecorded : recordLoop l.world
      ((⟨l.world.engine, .empty⟩ : Loop).settle l.world.inputs) = l.world.process.2 := by
    rw [hsettled]
    simp only [recordLoop, Rehearsal.record, hsame]
    rfl
  simp only [react, hrunning, hquiet, hempty, hrecorded, Bool.not_true, Bool.false_eq_true,
    if_false]

namespace Session

variable {s : Session}

/-- Without a change and without the signal, a turn handles the next message, if there is one. -/
theorem turn_eq_next (hserving : s.phase = .serving) (hquiet : s.signalled = false)
    (hseen : s.feed.size = 0) (told : Telling) :
    let o := s.engine.perform (.next (told.inputs s.settings.store))
    s.turn told = ({ s with engine := o.engine }, o.actions) := by
  intro o
  have hturn := s.turn_turn told
  generalize s.turn told = p at hturn ⊢
  cases hturn with
  | opening hphase =>
    rw [hserving] at hphase
    cases hphase
  | message hphase hwaiting => simp only [o, Engine.perform, hwaiting]
  | change hphase hidle hunseen =>
    rw [ChangeFeed.next?_eq_none_iff.2 hseen] at hunseen
    cases hunseen
  | close hidle hsignalled =>
    rw [hquiet] at hsignalled
    cases hsignalled
  | wait hbegun hidle =>
    simp only [o, Engine.perform, (hidle hserving).1.nextMessage?]

theorem turns_eq_run (hserving : s.phase = .serving) (hquiet : s.signalled = false)
    (hseen : s.feed.size = 0) (tellings : List Telling) :
    let o := s.engine.run (tellings.map fun told => .next (told.inputs s.settings.store))
    s.after (tellings.map .turn) = { s with engine := o.engine } ∧
      s.actions (tellings.map .turn) = o.actions := by
  induction tellings generalizing s with
  | nil => exact ⟨rfl, rfl⟩
  | cons told tellings ih =>
    have hfirst := turn_eq_next hserving hquiet hseen told
    let f := (s.engine.perform (.next (told.inputs s.settings.store))).engine
    obtain ⟨hlast, hlater⟩ := ih (s := { s with engine := f }) hserving hquiet hseen
    simp only [List.map_cons, after_cons, actions, next, perform, hfirst, Engine.run_cons,
      Outcome.andThen]
    exact ⟨hlast, congrArg _ hlater⟩

theorem turns_eq_processPending (hserving : s.phase = .serving) (hquiet : s.signalled = false)
    (hseen : s.feed.size = 0) (told : Telling) {n : Nat}
    (hidle : (s.after (List.replicate n (.turn told))).Idle) :
    let o := (s.engine.processPending (told.inputs s.settings.store)).2
    s.after (List.replicate n (.turn told)) = { s with engine := o.engine } ∧
      s.actions (List.replicate n (.turn told)) = o.actions := by
  have hturns := turns_eq_run hserving hquiet hseen (List.replicate n told)
  simp only [List.map_replicate] at hturns
  have hnothing := hidle.nextMessage?
  rw [hturns.1] at hnothing
  rw [Engine.run_next_of_idle hnothing] at hturns
  exact hturns

theorem rests_by_turns (hserving : s.phase = .serving) (hquiet : s.signalled = false)
    (hseen : s.feed.size = 0) (told : Telling) :
    ∃ n, (s.after (List.replicate n (.turn told))).Idle := by
  let inputs := told.inputs s.settings.store
  refine ⟨(s.engine.processPending inputs).1, ?_⟩
  have hturns := (turns_eq_run hserving hquiet hseen
    (List.replicate (s.engine.processPending inputs).1 told)).1
  simp only [List.map_replicate] at hturns
  rw [hturns, Engine.run_replicate_next]
  exact idle_of_queues hserving (Engine.queues_processPending s.engine inputs) hseen

/-- The loop and the hand agree: while no change and no signal comes, the loop comes to rest with
the engine that handling all messages by hand leaves, and has done the same in the same order. Turn
by turn they agree also when each turn is told something else. The listener and the notifier of a
rehearsal cannot tell one from the other. -/
theorem settles_as_by_hand :
    (∀ s : Session, s.phase = .serving → s.signalled = false → s.feed.drain = [] →
      (∀ told, let o := (s.engine.processPending (told.inputs s.settings.store)).2
        o.engine.queues = ([], []) ∧
        (∃ n, (s.after (List.replicate n (.turn told))).Idle) ∧
        ∀ n, (s.after (List.replicate n (.turn told))).Idle →
          s.after (List.replicate n (.turn told)) = { s with engine := o.engine } ∧
            s.actions (List.replicate n (.turn told)) = o.actions) ∧
      ∀ tellings : List Telling,
        let o := s.engine.run (tellings.map fun told => .next (told.inputs s.settings.store))
        s.after (tellings.map .turn) = { s with engine := o.engine } ∧
          s.actions (tellings.map .turn) = o.actions) ∧
    ∀ l : LiveRehearsal, l.running = true → l.signalled = false →
      (∀ feed ∈ l.world.settings.watchers, feed = .empty) →
        l.react = { l with world := l.world.process.2.runDeliveries } := by
  refine ⟨fun s hserving hquiet hseen => ?_, fun l => LiveRehearsal.react_eq_process⟩
  have hsize : s.feed.size = 0 := by rw [← s.feed.length_drain, hseen]; rfl
  refine ⟨fun told => ⟨?_, ?_, fun n hidle => ?_⟩, fun tellings => ?_⟩
  · exact Engine.queues_processPending _ _
  · exact rests_by_turns hserving hquiet hsize told
  · exact turns_eq_processPending hserving hquiet hsize told hidle
  · exact turns_eq_run hserving hquiet hsize tellings

/-- A report, a request to clear and one to build again wait when the loop gets its turns, and the
announcement is played. -/
theorem settles_as_by_hand_queued :
    ∃ s : Session, s.engine.fires.length = 1 ∧ s.engine.commands.length = 2 ∧ ∃ told n r,
      (s.after (List.replicate n (.turn told))).engine =
        (s.engine.processPending (told.inputs s.settings.store)).2.engine ∧
      (s.actions (List.replicate n (.turn told))).filterMap Action.delivery? =
        [(r, "announcement-maghrib.mp3")] := by
  obtain ⟨e, hcreated⟩ : ∃ e, Engine.new {} ⟨0, .utc⟩ = .ok e := ⟨_, rfl⟩
  let told := Telling.daily .maghrib ⟨1080, by decide⟩
  let r : Registration := ⟨8, 8, .announcement .maghrib ⟨0⟩ ⟨1065, by decide⟩, ⟨63900000, .utc⟩⟩
  let s := (enter e .empty).after (Happening.opening .maghrib told ++
    [.fire r.alarm, .request .clear, .request (.reschedule "again")])
  have hstart := (Engine.new_eq hcreated).2
  have hserving : s.phase = .serving := by simp only [s]; rw [hstart]; cbv
  have hquiet : s.signalled = false := by simp only [s]; rw [hstart]; cbv
  have hseen : s.feed.drain = [] := by simp only [s]; rw [hstart]; cbv
  obtain ⟨hagree, -⟩ := settles_as_by_hand
  obtain ⟨-, ⟨n, hidle⟩, hsame⟩ := (hagree s hserving hquiet hseen).1 told
  obtain ⟨hafter, hactions⟩ := hsame n hidle
  refine ⟨s, ?_, ?_, told, n, r, by rw [hafter], ?_⟩
  · simp only [s]; rw [hstart]; cbv
  · simp only [s]; rw [hstart]; cbv
  · rw [hactions]
    simp only [s]; rw [hstart]; cbv

end Session

end Muezzin
