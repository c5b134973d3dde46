import Muezzin.Proofs.Sessions

/-!
# Onlookers change nothing

Listeners, and whatever the files are handed to, are told what the engine does and cannot answer it.
A delivery may succeed, fail, panic or never end, and events may be lost for want of room or because
nobody listens any more. Even while the loop is at work, all this only ever costs it a turn in which
it takes note of a delivery that has ended. So two runs in which the same is done to the engine, and
the same is answered when it asks, are the same run, whatever the onlookers do in each of them.
-/

namespace Muezzin

def SchedulerConfig.withRoom (config : SchedulerConfig) (n : UInt64) : SchedulerConfig :=
  { config with engine := { config.engine with eventCapacity := n } }

theorem Engine.new_withRoom {config : SchedulerConfig} {clock : Instant} {n m : UInt64}
    (hn0 : n ≠ 0) (hm0 : m ≠ 0) :
    Engine.new (config.withRoom n) clock = Engine.new (config.withRoom m) clock := by
  have hroom (k : UInt64) (hk0 : k ≠ 0) :
      { config.engine with eventCapacity := k }.validate =
        (config.engine.zone.bind fun _ => .ok () : Except Error Unit) := by
    rw [EngineConfig.validate, if_neg hk0]
    rfl
  have hsame : (config.withRoom n).validate = (config.withRoom m).validate := by
    simp only [SchedulerConfig.validate, SchedulerConfig.sections, SchedulerConfig.withRoom,
      hroom n hn0, hroom m hm0]
  rw [Engine.new, Engine.new, hsame]
  rfl

/-! ### A loop that is told something else in every turn -/

namespace Loop

variable {l next : Loop} {told : Nat → Inputs} {actions : List Action}

/-- Acts until nothing waits, and counts the turns. In each of them it is told `told` of its number
when it asks. -/
def settleWith (l : Loop) (told : Nat → Inputs) : Nat × Loop × List Action :=
  match h : l.turn? (told 0) with
  | none => (0, l, [])
  | some (next, actions) =>
    have := waiting_turn?_lt h
    let (count, last, later) := next.settleWith fun n => told (n + 1)
    (count + 1, last, actions ++ later)
termination_by l.waiting

def stopWith (l : Loop) (told : Nat → Inputs) : Loop × List Action :=
  let (_, l, actions) := l.settleWith told
  let (count, cleared) := l.engine.clear
  ({ l with engine := cleared.engine },
    actions ++ .signalled :: (cleared.actions ++ [.stopped count]))

theorem settleWith_of_none (hstill : l.turn? (told 0) = none) : l.settleWith told = (0, l, []) := by
  rw [settleWith]
  split
  · rfl
  · next hacted =>
    rw [hstill] at hacted
    cases hacted

theorem settleWith_of_some (hacted : l.turn? (told 0) = some (next, actions)) :
    l.settleWith told =
      ((next.settleWith fun n => told (n + 1)).1 + 1, (next.settleWith fun n => told (n + 1)).2.1,
        actions ++ (next.settleWith fun n => told (n + 1)).2.2) := by
  rw [settleWith]
  split
  · next hstill =>
    rw [hacted] at hstill
    cases hstill
  · next other more hacted' =>
    rw [hacted] at hacted'
    cases hacted'
    rfl

theorem stopWith_of_some (hacted : l.turn? (told 0) = some (next, actions)) :
    l.stopWith told =
      ((next.stopWith fun n => told (n + 1)).1,
        actions ++ (next.stopWith fun n => told (n + 1)).2) := by
  simp only [stopWith, settleWith_of_some hacted, List.append_assoc]

theorem settleWith_const (l : Loop) (inputs : Inputs) :
    (l.settleWith fun _ => inputs).2 = l.settle inputs := by
  induction hwaits : l.waiting using Nat.strong_induction_on generalizing l with
  | _ n ih =>
    cases hacted : l.turn? inputs with
    | none => rw [@settleWith_of_none l (fun _ => inputs) hacted, settle_of_none hacted]
    | some p =>
      obtain ⟨next, actions⟩ := p
      have hlater := ih _ (hwaits ▸ waiting_turn?_lt hacted) next rfl
      rw [@settleWith_of_some l next (fun _ => inputs) actions hacted, settle_of_some hacted,
        ← hlater]

theorem stopWith_const (l : Loop) (inputs : Inputs) :
    (l.stopWith fun _ => inputs) = l.stop inputs := by
  rw [stop, ← settleWith_const]
  rfl

theorem settleWith_eq_processPending (e : Engine) (inputs : Inputs) :
    (⟨e, .empty⟩ : Loop).settleWith (fun _ => inputs) =
      ((e.processPending inputs).1, ⟨(e.processPending inputs).2.engine, .empty⟩,
        (e.processPending inputs).2.actions) := by
  fun_induction Engine.processPending e inputs with
  | case1 e hidle =>
    have hstill : (⟨e, .empty⟩ : Loop).turn? inputs = none := by
      rw [turn?, hidle]
      rfl
    exact @settleWith_of_none _ (fun _ => inputs) hstill
  | case2 e message rest hwaiting hshorter hkept handled count o hlater ih =>
    have hacted : (⟨e, .empty⟩ : Loop).turn? inputs =
        some (⟨handled.engine, .empty⟩, handled.actions) := by
      rw [turn?, hwaiting]
    rw [@settleWith_of_some _ _ (fun _ => inputs) _ hacted, ih, hlater]

end Loop

/-! ### Onlookers -/

inductive Ending where
  | returned
  | panicked
  deriving DecidableEq, Repr

/-- All that onlookers have to do with. -/
structure Gallery where
  events : EventChannel := { capacity := 0 }
  output : Output := .speaker {}
  deliveries : List Delivery := []
  played : List String := []
  /-- Deliveries that have ended and of which the engine has not taken note yet. -/
  ended : List Ending := []

namespace Rehearsal

def facing (r : Rehearsal) (g : Gallery) : Rehearsal :=
  { r with events := g.events, output := g.output, deliveries := g.deliveries, played := g.played }

def unobserved (r : Rehearsal) : Rehearsal :=
  r.facing {}

theorem exists_facing (r : Rehearsal) (alive : Bool) :
    (∃ g, r.collect.2 = r.facing g) ∧ (∃ g, (r.apply alive .closeEvents).2 = r.facing g) ∧
      ∃ g, r.runDeliveries = r.facing g :=
  ⟨⟨{ events := r.events.drain.2, output := r.output, deliveries := r.deliveries }, rfl⟩,
    ⟨{ events := r.events.close, output := r.output, deliveries := r.deliveries,
        played := r.played },
      rfl⟩,
    ⟨{ events := r.runDeliveries.events, output := r.output, played := r.runDeliveries.played },
      rfl⟩⟩

def processWith (r : Rehearsal) (told : Nat → Inputs) : Nat × Rehearsal × List Action :=
  let (count, loop, actions) := (⟨r.engine, .empty⟩ : Loop).settleWith told
  (count, r.record loop.engine actions, actions)

def advanceWith (r : Rehearsal) (told : Nat → Inputs) (target : Instant) :
    Answer × Rehearsal × List Action :=
  let (fired, r) := r.advanceTimers target
  let (handled, r, actions) := r.processWith told
  (.advanced fired handled, r.runDeliveries, actions)

/-- What comes of driving the engine by hand when it is told `told`, and what the engine does. -/
def enact (r : Rehearsal) (told : Nat → Inputs) : HandOperation → Answer × Rehearsal × List Action
  | .stimulus s =>
    let (answer, r) := r.apply true s
    (answer, r, [])
  | .rebuild =>
    let o := r.engine.rebuild (told 0)
    (.count o.engine.registry.size, r.recordOutcome o, o.actions)
  | .clear =>
    let (count, o) := r.engine.clear
    (.count count, r.recordOutcome o, o.actions)
  | .process =>
    let (count, r, actions) := r.processWith told
    (.count count, r, actions)
  | .runDeliveries => (.nothing, r.runDeliveries, [])
  | .advanceTo target => r.advanceWith told target
  | .advance millis => r.advanceWith told (r.engine.clock.addMillis millis)
  | .next =>
    match r.engine.timers.nextDue? with
    | some due => r.advanceWith told due
    | none => (.nothing, r, [])

def joins (r : Rehearsal) : HandOperation → Bool
  | .process => true
  | .runDeliveries => true
  | .advanceTo _ => true
  | .advance _ => true
  | .next => r.engine.timers.nextDue?.isSome
  | _ => false

theorem processWith_own (r : Rehearsal) :
    (r.processWith fun _ => r.inputs).1 = r.process.1 ∧
      (r.processWith fun _ => r.inputs).2.1 = r.process.2 := by
  simp only [processWith, Loop.settleWith_eq_processPending]
  exact ⟨rfl, rfl⟩

theorem advanceWith_own (r : Rehearsal) (target : Instant) :
    (r.advanceWith (fun _ => r.inputs) target).1 =
        .advanced (r.advanceTo target).1.1 (r.advanceTo target).1.2 ∧
      (r.advanceWith (fun _ => r.inputs) target).2.1 = (r.advanceTo target).2 := by
  obtain ⟨hcount, hafter⟩ := (r.advanceTimers target).2.processWith_own
  exact ⟨congrArg (Answer.advanced _) hcount, congrArg runDeliveries hafter⟩

theorem enact_own (r : Rehearsal) (op : HandOperation) :
    (r.enact (fun _ => r.inputs) op).1 = (r.perform op).1 ∧
      (r.enact (fun _ => r.inputs) op).2.1 = (r.perform op).2 := by
  cases op with
  | stimulus | rebuild | clear | runDeliveries => exact ⟨rfl, rfl⟩
  | process =>
    obtain ⟨hcount, hafter⟩ := r.processWith_own
    exact ⟨congrArg Answer.count hcount, hafter⟩
  | advanceTo target => exact r.advanceWith_own target
  | advance millis => exact r.advanceWith_own _
  | next =>
    rw [enact, perform, next?]
    cases r.engine.timers.nextDue? with
    | none => exact ⟨rfl, rfl⟩
    | some due => exact r.advanceWith_own due

/-- Stimuli apart, which the engine only answers to later, the rehearsal takes note of what the
engine does, and after that at most deliveries get their turn. -/
theorem enact_takes_note (r : Rehearsal) (told : Nat → Inputs) (op : HandOperation) :
    (∃ s, op = .stimulus s) ∨
      let (_, after, actions) := r.enact told op
      after = r.record after.engine actions ∨
        after = (r.record after.engine actions).runDeliveries := by
  have hnothing : r.record r.engine [] = r := by
    simp [record, EventChannel.sendAll]
  cases op with
  | stimulus s => exact .inl ⟨s, rfl⟩
  | rebuild | clear | process => exact .inr (.inl rfl)
  | runDeliveries => exact .inr (.inr (congrArg runDeliveries hnothing.symm))
  | advanceTo | advance => exact .inr (.inr rfl)
  | next =>
    rw [enact]
    cases r.engine.timers.nextDue? with
    | none => exact .inr (.inl hnothing.symm)
    | some due => exact .inr (.inr rfl)

theorem apply_unobserved (r : Rehearsal) (alive : Bool) (s : Stimulus) :
    (r.unobserved.apply alive s).1 = (r.apply alive s).1 ∧
      (r.unobserved.apply alive s).2.unobserved = (r.apply alive s).2.unobserved := by
  cases s with
  | reschedule | requestClear => cases alive <;> exact ⟨rfl, rfl⟩
  | _ => exact ⟨rfl, rfl⟩

theorem enact_unobserved (r : Rehearsal) (told : Nat → Inputs) (op : HandOperation) :
    (r.unobserved.enact told op).1 = (r.enact told op).1 ∧
      (r.unobserved.enact told op).2.1.unobserved = (r.enact told op).2.1.unobserved ∧
      (r.unobserved.enact told op).2.2 = (r.enact told op).2.2 := by
  cases op with
  | stimulus s =>
    obtain ⟨hanswer, hafter⟩ := r.apply_unobserved true s
    exact ⟨hanswer, hafter, rfl⟩
  | next =>
    have hsame : r.unobserved.engine.timers.nextDue? = r.engine.timers.nextDue? := rfl
    rw [enact, enact, hsame]
    cases r.engine.timers.nextDue? with
    | none => exact ⟨rfl, rfl, rfl⟩
    | some due => exact ⟨rfl, rfl, rfl⟩
  | _ => exact ⟨rfl, rfl, rfl⟩

def withLoop (r : Rehearsal) (l : Loop) : Rehearsal :=
  { r with
    engine := l.engine
    settings := { r.settings with watchers := r.settings.watchers.map fun _ => l.feed } }

theorem withLoop_withLoop (r : Rehearsal) (k l : Loop) :
    (r.withLoop k).withLoop l = r.withLoop l := by
  simp only [withLoop, List.map_map]
  rfl

end Rehearsal

namespace LiveRehearsal

variable {l : LiveRehearsal} {told : Nat → Inputs}

def unobserved (l : LiveRehearsal) : LiveRehearsal :=
  { l with world := l.world.unobserved }

def loop (l : LiveRehearsal) : Loop :=
  ⟨l.world.engine, feed l.world⟩

/-- Lets the loop act until nothing waits, or until it ends, while it is told `told`. The actions
are those of the loop. -/
def reactWith (l : LiveRehearsal) (told : Nat → Inputs) : LiveRehearsal × List Action :=
  if !l.running then (l, [])
  else if l.signalled then
    let step := l.loop.stopWith told
    let world := recordLoop l.world step
    ({ l with world := { world with deliveries := [] }, running := false }, step.2)
  else
    let (_, step) := l.loop.settleWith told
    ({ l with world := (recordLoop l.world step).runDeliveries }, step.2)

theorem reactWith_own (l : LiveRehearsal) : (l.reactWith fun _ => l.world.inputs).1 = l.react := by
  simp only [reactWith, react, Loop.stopWith_const, Loop.settleWith_const]
  split
  · rfl
  · split <;> rfl

theorem reactWith_of_ended (hended : l.running = false) : l.reactWith told = (l, []) := by
  simp only [reactWith, hended, Bool.not_false, if_true]

theorem react_of_ended (hended : l.running = false) : l.react = l := by
  rw [← reactWith_own, reactWith_of_ended hended]

theorem running_reactWith (hsignalled : l.signalled = true) :
    (l.reactWith told).1.running = false := by
  simp only [reactWith, if_pos hsignalled]
  split
  · next hended => simpa using hended
  · rfl

theorem reactWith_of_signalled (hrunning : l.running = true) (hsignalled : l.signalled = true) :
    (l.reactWith told).1.unobserved =
        { l.unobserved with
          world := l.unobserved.world.withLoop (l.loop.stopWith told).1, running := false } ∧
      (l.reactWith told).2 = (l.loop.stopWith told).2 := by
  have hgoesOn : ¬(!l.running) = true := by simp [hrunning]
  simp only [reactWith, if_neg hgoesOn, if_pos hsignalled]
  exact ⟨rfl, trivial⟩

theorem reactWith_of_quiet (hrunning : l.running = true) (hquiet : l.signalled = false) :
    (l.reactWith told).1.unobserved =
        { l.unobserved with
          world := l.unobserved.world.withLoop (l.loop.settleWith told).2.1 } ∧
      (l.reactWith told).2 = (l.loop.settleWith told).2.2 := by
  have hgoesOn : ¬(!l.running) = true := by simp [hrunning]
  have hunsignalled : ¬l.signalled = true := by simp [hquiet]
  simp only [reactWith, if_neg hgoesOn, if_neg hunsignalled]
  exact ⟨rfl, trivial⟩

/-- What the loop does is what the rehearsal takes note of, and after that deliveries get their turn
or are given up. -/
theorem reactWith_takes_note (hrunning : l.running = true) :
    let (after, actions) := l.reactWith told
    ∃ loop, after.world = (recordLoop l.world (loop, actions)).runDeliveries ∨
      after.world = { recordLoop l.world (loop, actions) with deliveries := [] } := by
  have hgoesOn : ¬(!l.running) = true := by simp [hrunning]
  simp only [reactWith, if_neg hgoesOn]
  split
  · exact ⟨_, .inr rfl⟩
  · exact ⟨_, .inl rfl⟩

/-- Onlookers change neither where the loop gets to nor what it does on the way there. -/
theorem reactWith_unobserved (l : LiveRehearsal) (told : Nat → Inputs) :
    (l.unobserved.reactWith told).1.unobserved = (l.reactWith told).1.unobserved ∧
      (l.unobserved.reactWith told).2 = (l.reactWith told).2 := by
  cases hrunning : l.running with
  | false =>
    rw [reactWith_of_ended hrunning, reactWith_of_ended (l := l.unobserved) hrunning]
    exact ⟨rfl, rfl⟩
  | true =>
    cases hsignalled : l.signalled with
    | false =>
      obtain ⟨hafter, hactions⟩ := reactWith_of_quiet hrunning hsignalled
      obtain ⟨hafter', hactions'⟩ := reactWith_of_quiet (l := l.unobserved) hrunning hsignalled
      exact ⟨hafter'.trans hafter.symm, hactions'.trans hactions.symm⟩
    | true =>
      obtain ⟨hafter, hactions⟩ := reactWith_of_signalled hrunning hsignalled
      obtain ⟨hafter', hactions'⟩ := reactWith_of_signalled (l := l.unobserved) hrunning hsignalled
      exact ⟨hafter'.trans hafter.symm, hactions'.trans hactions.symm⟩

theorem loop_recordLoop {inputs : Inputs} {step : Loop × List Action}
    (hacted : l.loop.turn? inputs = some step) :
    ({ l with world := recordLoop l.world step } : LiveRehearsal).loop = step.1 := by
  have hseen : (l.world.settings.watchers.map fun _ => step.1.feed).headD .empty = step.1.feed := by
    cases hwatchers : l.world.settings.watchers with
    | cons => rfl
    | nil =>
      have hempty : l.loop.feed = .empty := by
        rw [loop, feed, hwatchers]
        rfl
      obtain ⟨message, rest, -, hsame, -⟩ | ⟨change, others, -, hunseen, -, -⟩ :=
        Loop.turn?_cases hacted
      · rw [hsame]
        exact hempty.symm
      · rw [hempty] at hunseen
        cases hunseen
  exact congrArg (Loop.mk step.1.engine) hseen

/-- A turn that is taken now need not be taken later, and nothing else comes of it. -/
theorem reactWith_recordLoop (told : Nat → Inputs) {step : Loop × List Action}
    (hrunning : l.running = true) (hacted : l.loop.turn? (told 0) = some step) :
    let next := { l with world := recordLoop l.world step }
    (next.reactWith fun n => told (n + 1)).1.unobserved = (l.reactWith told).1.unobserved ∧
      step.2 ++ (next.reactWith fun n => told (n + 1)).2 = (l.reactWith told).2 := by
  intro next
  have hloop : next.loop = step.1 := loop_recordLoop hacted
  have hworld (k : Loop) : next.unobserved.world.withLoop k = l.unobserved.world.withLoop k :=
    Rehearsal.withLoop_withLoop l.unobserved.world step.1 k
  cases hsignalled : l.signalled with
  | false =>
    obtain ⟨hafter, hactions⟩ := reactWith_of_quiet hrunning hsignalled
    obtain ⟨hafter', hactions'⟩ := reactWith_of_quiet (l := next) hrunning hsignalled
    rw [hafter, hactions, hafter', hactions', hloop, hworld, Loop.settleWith_of_some hacted]
    exact ⟨rfl, rfl⟩
  | true =>
    obtain ⟨hafter, hactions⟩ := reactWith_of_signalled hrunning hsignalled
    obtain ⟨hafter', hactions'⟩ := reactWith_of_signalled (l := next) hrunning hsignalled
    rw [hafter, hactions, hafter', hactions', hloop, hworld, Loop.stopWith_of_some hacted]
    exact ⟨rfl, rfl⟩

theorem watch_unobserved (r : Rehearsal) : watch r.unobserved = (watch r).unobserved := by
  have hsame : r.unobserved.settingsFrom = r.settingsFrom := rfl
  rw [watch, watch, hsame]
  split <;> rfl

theorem applyAll_unobserved (l : LiveRehearsal) (ss : List Stimulus) :
    (applyAll ss l.unobserved).1 = (applyAll ss l).1 ∧
      (applyAll ss l.unobserved).2.unobserved = (applyAll ss l).2.unobserved := by
  induction ss generalizing l with
  | nil => exact ⟨rfl, rfl⟩
  | cons s ss ih =>
    obtain ⟨hanswer, hworld⟩ := l.world.apply_unobserved l.running s
    obtain ⟨hhere, hthere⟩ := ih { l with world := (l.unobserved.world.apply l.running s).2 }
    obtain ⟨hhere', hthere'⟩ := ih { l with world := (l.world.apply l.running s).2 }
    have hsame : ({ l with world := (l.unobserved.world.apply l.running s).2 } :
        LiveRehearsal).unobserved =
        ({ l with world := (l.world.apply l.running s).2 } : LiveRehearsal).unobserved :=
      congrArg (fun world => { l with world }) hworld
    rw [hsame] at hhere hthere
    exact ⟨congrArg₂ List.cons hanswer (hhere.symm.trans hhere'), hthere.symm.trans hthere'⟩

theorem prompt_unobserved (l : LiveRehearsal) (op : LiveOperation) :
    (l.unobserved.prompt op).1 = (l.prompt op).1 ∧
      (l.unobserved.prompt op).2.unobserved = (l.prompt op).2.unobserved := by
  cases op with
  | stimulus s =>
    obtain ⟨hanswer, hworld⟩ := l.world.apply_unobserved l.running s
    exact ⟨hanswer, congrArg (fun world => { l with world }) hworld⟩
  | batch ss =>
    obtain ⟨hanswers, hafter⟩ := applyAll_unobserved l ss
    exact ⟨congrArg Answer.several hanswers, hafter⟩
  | shutdown | dropSender =>
    have hsame : l.unobserved.senderHeld = l.senderHeld := rfl
    rw [prompt, prompt, hsame]
    split <;> exact ⟨rfl, rfl⟩
  | interrupt => exact ⟨rfl, rfl⟩

end LiveRehearsal

/-- What can be done to an engine: it is driven by hand, or started, or something happens while the
loop has it. -/
inductive Deed where
  | byHand (op : HandOperation)
  | start (stopsOn : StopSignal)
  | live (op : LiveOperation)

/-- Something to do, and what the engine is told when it asks in the course of it, for the first
time, for the second and so on. Of itself a rehearsal answers from its own times and settings. -/
structure Order where
  deed : Deed
  told : Rehearsal → Nat → Inputs := fun r _ => r.inputs

/-- Something that is done, and what onlookers do before each of the next turns of the loop: there
everything that they have to do with may become anything at all. -/
structure Scene where
  order : Order
  interludes : List (Gallery → Gallery) := []

/-- A rehearsal with all that has been done in it. While its loop does not run, the engine is driven
by hand. -/
structure Stage where
  live : LiveRehearsal
  ended : List Ending := []
  /-- How often the engine has been answered since the last order. -/
  answered : Nat := 0
  actions : List Action := []

/-- What there is to say after an order has been followed: the answer, the engine with its
registrations, timers, queues and memory of recent runs, and all that it has done. The events that
it has told or tried to tell and the files that it has handed off are read off the actions. -/
structure Account where
  answer : Answer
  engine : Engine
  actions : List Action

namespace Stage

def of (r : Rehearsal) : Stage :=
  { live := { world := r, stopsOn := .sender, running := false } }

def gallery (s : Stage) : Gallery where
  events := s.live.world.events
  output := s.live.world.output
  deliveries := s.live.world.deliveries
  played := s.live.world.played
  ended := s.ended

def facing (s : Stage) (g : Gallery) : Stage :=
  { s with live := { s.live with world := s.live.world.facing g }, ended := g.ended }

def unobserved (s : Stage) : Stage :=
  s.facing {}

def note (s : Stage) (step : Loop × List Action) : Stage :=
  { s with
    live := { s.live with world := LiveRehearsal.recordLoop s.live.world step }
    answered := s.answered + 1
    actions := s.actions ++ step.2 }

def settle (told : Nat → Inputs) (s : Stage) : Stage :=
  let (live, actions) := s.live.reactWith fun n => told (s.answered + n)
  { live, ended := if s.live.running then [] else s.ended, actions := s.actions ++ actions }

/-- A single turn of the loop. It takes note of a delivery that has ended if nothing else waits, and
only if there is no such delivery either, it listens to the signal to stop. -/
def turn (told : Nat → Inputs) (s : Stage) : Stage :=
  if !s.live.running then s
  else
    match s.live.loop.turn? (told s.answered) with
    | some step => s.note step
    | none =>
      match s.ended with
      | _ :: ended => { s with ended }
      | [] => if s.live.signalled then s.settle told else s

def interlude (told : Nat → Inputs) (s : Stage) (i : Gallery → Gallery) : Stage :=
  (s.facing (i s.gallery)).turn told

def start (s : Stage) (world : Rehearsal) (stopsOn : StopSignal) (inputs : Inputs) : Stage :=
  { s with live := { world, stopsOn } }.note (Loop.start world.engine inputs)

/-- Does what is to be done, up to the turns that the loop takes because of it. -/
def obey (s : Stage) (told : Rehearsal → Nat → Inputs) : Deed → Answer × Stage
  | .byHand op =>
    if s.live.running then (.nothing, s)
    else
      let (answer, world, actions) := s.live.world.enact (told s.live.world.unobserved) op
      (answer,
        { live := { s.live with world }
          ended := if s.live.world.joins op then [] else s.ended
          actions := s.actions ++ actions })
  | .start stopsOn =>
    if s.live.running then (.nothing, s)
    else
      let world := LiveRehearsal.watch s.live.world
      (.nothing, s.start world stopsOn (told world.unobserved 0))
  | .live op =>
    let (answer, live) := s.live.prompt op
    (answer, { s with live })

/-- Follows an order and lets the loop come to rest. What the engine is told depends on everything
but the gallery. -/
def perform (s : Stage) (scene : Scene) : Answer × Stage :=
  let (answer, s) := s.obey scene.order.told scene.order.deed
  let told := scene.order.told s.live.world.unobserved
  (answer, (scene.interludes.foldl (interlude told) s).settle told)

variable {s t : Stage} {told : Nat → Inputs}

/-- Where the loop comes to rest and what has been done until then depends on nothing else. -/
theorem settle_congr
    (hafter : (t.live.reactWith fun n => told (t.answered + n)).1.unobserved =
      (s.live.reactWith fun n => told (s.answered + n)).1.unobserved)
    (hactions : t.actions ++ (t.live.reactWith fun n => told (t.answered + n)).2 =
      s.actions ++ (s.live.reactWith fun n => told (s.answered + n)).2) :
    (t.settle told).unobserved = (s.settle told).unobserved :=
  congrArg₂ (fun live actions => { live, actions : Stage }) hafter hactions

theorem settle_facing (told : Nat → Inputs) (s : Stage) (g : Gallery) :
    ((s.facing g).settle told).unobserved = (s.settle told).unobserved := by
  obtain ⟨hafter, hactions⟩ := s.live.reactWith_unobserved fun n => told (s.answered + n)
  obtain ⟨hafter', hactions'⟩ := (s.facing g).live.reactWith_unobserved fun n =>
    told (s.answered + n)
  exact settle_congr (hafter'.symm.trans hafter)
    (congrArg (s.actions ++ ·) (hactions'.symm.trans hactions))

theorem settle_of_idle (hidle : s.live.running = false) :
    s.settle told = { s with answered := 0 } := by
  rw [settle, LiveRehearsal.reactWith_of_ended hidle, hidle]
  simp only [List.append_nil]
  rfl

theorem settle_turn (told : Nat → Inputs) (s : Stage) :
    ((s.turn told).settle told).unobserved = (s.settle told).unobserved := by
  unfold turn
  split
  · rfl
  · next hgoesOn =>
    have hrunning : s.live.running = true := by simpa using hgoesOn
    split
    · next step hacted =>
      obtain ⟨hafter, hactions⟩ :=
        LiveRehearsal.reactWith_recordLoop (fun n => told (s.answered + n)) hrunning hacted
      have hlater : (fun n => told ((s.note step).answered + n)) =
          fun n => told (s.answered + (n + 1)) :=
        funext fun n => congrArg told (Nat.add_right_comm s.answered 1 n)
      refine settle_congr ?_ ?_
      · rw [hlater]
        exact hafter
      · rw [hlater, note, List.append_assoc]
        exact congrArg (s.actions ++ ·) hactions
    · split
      · rfl
      · split
        · next hsignalled =>
          -- This turn ends the loop, and then there is no other.
          have hended : (s.settle told).live.running = false :=
            LiveRehearsal.running_reactWith hsignalled
          rw [settle_of_idle hended]
          rfl
        · rfl

theorem settle_interludes (told : Nat → Inputs) (s : Stage) (is : List (Gallery → Gallery)) :
    ((is.foldl (interlude told) s).settle told).unobserved = (s.settle told).unobserved := by
  induction is generalizing s with
  | nil => rfl
  | cons i is ih =>
    rw [List.foldl_cons, ih, interlude, settle_turn, settle_facing]

theorem obey_unobserved (s : Stage) (told : Rehearsal → Nat → Inputs) (deed : Deed) :
    (s.unobserved.obey told deed).1 = (s.obey told deed).1 ∧
      (s.unobserved.obey told deed).2.unobserved = (s.obey told deed).2.unobserved := by
  have hsame : s.unobserved.live.running = s.live.running := rfl
  cases deed with
  | byHand op =>
    rw [obey, obey, hsame]
    split
    · exact ⟨rfl, rfl⟩
    · obtain ⟨hanswer, hafter, hactions⟩ :=
        s.live.world.enact_unobserved (told s.live.world.unobserved) op
      exact ⟨hanswer, congrArg₂ (fun world actions =>
        ({ live := { s.live with world }, actions := s.actions ++ actions } : Stage))
        hafter hactions⟩
  | start stopsOn =>
    rw [obey, obey, hsame]
    split
    · exact ⟨rfl, rfl⟩
    · refine ⟨rfl, ?_⟩
      let begun (world : Rehearsal) : Stage := s.start world stopsOn (told world.unobserved 0)
      show (begun (LiveRehearsal.watch s.live.world.unobserved)).unobserved =
        (begun (LiveRehearsal.watch s.live.world)).unobserved
      rw [LiveRehearsal.watch_unobserved]
      rfl
  | live op =>
    obtain ⟨hanswer, hlive⟩ := s.live.prompt_unobserved op
    exact ⟨hanswer, congrArg (fun live => ({ s with live, ended := [] } : Stage)) hlive⟩

theorem perform_rests (s : Stage) (scene : Scene) :
    let obeyed := (s.obey scene.order.told scene.order.deed).2
    (s.perform scene).2.unobserved =
      (obeyed.settle (scene.order.told obeyed.live.world.unobserved)).unobserved :=
  settle_interludes _ _ _

/-- What comes of a scene depends on the order and on nothing that onlookers do. -/
theorem perform_eq (s : Stage) (scene : Scene) :
    let obeyed := s.unobserved.obey scene.order.told scene.order.deed
    (s.perform scene).1 = obeyed.1 ∧
      (s.perform scene).2.unobserved =
        (obeyed.2.unobserved.settle
          (scene.order.told obeyed.2.live.world.unobserved)).unobserved := by
  intro obeyed
  obtain ⟨hanswer, hafter⟩ := s.obey_unobserved scene.order.told scene.order.deed
  have hworld : obeyed.2.live.world.unobserved =
      (s.obey scene.order.told scene.order.deed).2.live.world.unobserved :=
    congrArg (fun u : Stage => u.live.world) hafter
  refine ⟨hanswer.symm, ?_⟩
  rw [hworld, hafter]
  exact (s.perform_rests scene).trans (settle_facing _ _ _).symm

def account (answer : Answer) (s : Stage) : Account :=
  ⟨answer, s.live.world.engine, s.actions⟩

def accounts : Stage → List Scene → List Account
  | _, [] => []
  | s, scene :: scenes =>
    let (answer, s) := s.perform scene
    account answer s :: s.accounts scenes

theorem accounts_congr {run other : List Scene} (hsame : s.unobserved = t.unobserved)
    (halike : run.map Scene.order = other.map Scene.order) : s.accounts run = t.accounts other := by
  induction run generalizing s t other with
  | nil => rw [List.map_eq_nil_iff.1 halike.symm, accounts, accounts]
  | cons scene run ih =>
    cases other with
    | nil => cases halike
    | cons scene' other =>
      obtain ⟨horder, horders⟩ := List.cons_eq_cons.1 halike
      obtain ⟨hanswer, hafter⟩ := s.perform_eq scene
      obtain ⟨hanswer', hafter'⟩ := t.perform_eq scene'
      rw [hsame, horder] at hanswer hafter
      have hhere : (s.perform scene).2.unobserved = (t.perform scene').2.unobserved :=
        hafter.trans hafter'.symm
      have htold : account (s.perform scene).1 (s.perform scene).2 =
          account (t.perform scene').1 (t.perform scene').2 := by
        show account _ (s.perform scene).2.unobserved = account _ (t.perform scene').2.unobserved
        rw [hhere, hanswer, hanswer']
      exact congrArg₂ List.cons htold (ih hhere horders)

/-! ### Stages are rehearsals -/

/-- When a rehearsal answers from its own times and settings, its loop reacts as it does alone. -/
theorem live_perform (s : Stage) (deed : Deed) (is : List (Gallery → Gallery)) :
    let obeyed := (s.obey (fun r _ => r.inputs) deed).2
    (s.perform ⟨{ deed }, is⟩).2.live.unobserved = obeyed.live.react.unobserved ∧
      (s.perform ⟨{ deed }, is⟩).2.actions =
        obeyed.actions ++ (obeyed.live.reactWith fun _ => obeyed.live.world.inputs).2 := by
  intro obeyed
  have hrests := s.perform_rests ⟨{ deed }, is⟩
  exact ⟨(congrArg live hrests).trans
    (congrArg LiveRehearsal.unobserved obeyed.live.reactWith_own), congrArg Stage.actions hrests⟩

theorem perform_byHand (hidle : s.live.running = false) (op : HandOperation)
    (is : List (Gallery → Gallery)) :
    (s.perform ⟨{ deed := .byHand op }, is⟩).1 = (s.live.world.perform op).1 ∧
      (s.perform ⟨{ deed := .byHand op }, is⟩).2.live.unobserved =
        { s.live with world := (s.live.world.perform op).2 }.unobserved := by
  have hgoesOn : ¬s.live.running = true := by simp [hidle]
  obtain ⟨hanswer, hafter⟩ := s.live.world.enact_own op
  have hobeyed : (s.obey (fun r _ => r.inputs) (.byHand op)).1 = (s.live.world.perform op).1 ∧
      (s.obey (fun r _ => r.inputs) (.byHand op)).2.live =
        { s.live with world := (s.live.world.perform op).2 } := by
    rw [obey, if_neg hgoesOn]
    exact ⟨hanswer, congrArg (fun world => { s.live with world }) hafter⟩
  refine ⟨hobeyed.1, (s.live_perform _ is).1.trans ?_⟩
  rw [hobeyed.2, LiveRehearsal.react_of_ended (by exact hidle)]

theorem perform_start (hidle : s.live.running = false) (stopsOn : StopSignal)
    (is : List (Gallery → Gallery)) :
    (s.perform ⟨{ deed := .start stopsOn }, is⟩).2.live.unobserved =
      (LiveRehearsal.start s.live.world stopsOn).unobserved := by
  have hgoesOn : ¬s.live.running = true := by simp [hidle]
  rw [(s.live_perform _ is).1, obey, if_neg hgoesOn]
  rfl

theorem perform_live (s : Stage) (op : LiveOperation) (is : List (Gallery → Gallery)) :
    (s.perform ⟨{ deed := .live op }, is⟩).1 = (s.live.perform op).1 ∧
      (s.perform ⟨{ deed := .live op }, is⟩).2.live.unobserved =
        (s.live.perform op).2.unobserved :=
  ⟨rfl, (s.live_perform (.live op) is).1⟩

/-- Onlookers do not influence the schedule. It makes no difference how much room there is for
events, as long as there is any. And if in two runs the same orders are given to engines that differ
at most in who looks on, then after every order the answer is the same, so are the engines with all
that they have registered, timed, queued and remembered, and so is all that they have done, whatever
onlookers have done in between. -/
theorem unmoved_by_onlookers :
    (∀ (config : SchedulerConfig) (clock : Instant) (n m : UInt64), n ≠ 0 → m ≠ 0 →
      (Rehearsal.new (config.withRoom n) clock).map Rehearsal.unobserved =
        (Rehearsal.new (config.withRoom m) clock).map Rehearsal.unobserved) ∧
    ∀ (s t : Stage) (run other : List Scene), s.unobserved = t.unobserved →
      run.map Scene.order = other.map Scene.order → s.accounts run = t.accounts other := by
  refine ⟨fun config clock n m hn0 hm0 => ?_, fun s t run other => accounts_congr⟩
  rw [Rehearsal.new, Rehearsal.new, Engine.new_withRoom hn0 hm0]
  cases Engine.new (config.withRoom m) clock <;> rfl

theorem unmoved_by_deserters :
    ∃ r u, Rehearsal.new (({} : SchedulerConfig).withRoom 1000) ⟨0, .utc⟩ = .ok r ∧
      Rehearsal.new (({} : SchedulerConfig).withRoom 1) ⟨0, .utc⟩ = .ok u ∧
      ∃ run other,
        let s := of r
        let t := of { u with output := .speaker ⟨[(Speaker.anyFile, .hangs)]⟩ }
        s.unobserved = t.unobserved ∧ run.map Scene.order = other.map Scene.order ∧
        s.accounts run = t.accounts other ∧
        ((s.accounts run).getLast?.map fun a => a.actions.filterMap Action.delivery? |>.map (·.2)) =
          some ["announcement-maghrib.mp3", "azan.mp3"] ∧
        (run.foldl (fun s scene => (s.perform scene).2) s).gallery.events.waiting.getLast? =
          some (.stopped "Shutdown signal") ∧
        (other.foldl (fun s scene => (s.perform scene).2) t).gallery.events.waiting = [] := by
  obtain ⟨e, hcreated⟩ : ∃ e, Engine.new (({} : SchedulerConfig).withRoom 1000) ⟨0, .utc⟩ = .ok e :=
    ⟨_, rfl⟩
  have hcreated' : Engine.new (({} : SchedulerConfig).withRoom 1) ⟨0, .utc⟩ = .ok e :=
    (Engine.new_withRoom (by decide) (by decide)).trans hcreated
  let r : Rehearsal := { engine := e, events := { capacity := 1000 } }
  let u : Rehearsal := { engine := e, events := { capacity := 1 } }
  have hnew : Rehearsal.new (({} : SchedulerConfig).withRoom 1000) ⟨0, .utc⟩ = .ok r := by
    rw [Rehearsal.new, hcreated]
    rfl
  have hnew' : Rehearsal.new (({} : SchedulerConfig).withRoom 1) ⟨0, .utc⟩ = .ok u := by
    rw [Rehearsal.new, hcreated']
    rfl
  let times := PrayerTimes.new (PrayerTable.empty.insert .maghrib ⟨1080, by decide⟩) .empty
  let deeds : List Deed := [.byHand (.stimulus (.setDefault (some times))),
    .byHand (.stimulus (.setFlags ⟨true, true⟩)),
    .byHand (.stimulus (.setSettings (PrayerTable.empty.insert .maghrib .allEnabled))),
    .byHand .rebuild, .byHand (.stimulus (.timersTo ⟨63900000, .utc⟩)), .byHand .process,
    .start .sender,
    .live (.stimulus (.timersTo ⟨64800000, .utc⟩)),
    .live (.batch [.reschedule "again", .notify .prayerSource 1]), .live .shutdown]
  let leave (g : Gallery) : Gallery :=
    { g with events := g.events.close, ended := g.deliveries.map fun _ => .panicked }
  let run := deeds.map fun deed => (⟨{ deed }, []⟩ : Scene)
  let other := deeds.map fun deed => (⟨{ deed }, [leave, leave, leave]⟩ : Scene)
  have halike : run.map Scene.order = other.map Scene.order := rfl
  obtain ⟨-, rfl⟩ := Engine.new_eq hcreated
  obtain ⟨hroom, hunmoved⟩ := unmoved_by_onlookers
  have hsame : r.unobserved = u.unobserved := by
    have hboth := hroom {} ⟨0, .utc⟩ 1000 1 (by decide) (by decide)
    rw [hnew, hnew'] at hboth
    exact Except.ok.inj hboth
  refine ⟨r, u, hnew, hnew', run, other, congrArg of hsame, halike,
    hunmoved _ _ _ _ (congrArg of hsame) halike, ?_, ?_, ?_⟩
  · cbv
  · cbv
  · cbv

end Stage

end Muezzin
