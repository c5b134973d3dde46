import Muezzin.Config
import Muezzin.Debounce
import Muezzin.Engine.Action

/-!
# The engine and the delivery of an event

The engine owns the registry with its timers, the memory of recent runs, and two queues of messages:
reports of timers and requests from outside. A claimed azan plays unless it ran less than a minute
ago. A claimed announcement is first checked against the switches as they are now, so one that has
been turned off since it was scheduled is withdrawn.
-/

namespace Muezzin

inductive Command where
  | reschedule (reason : String)
  /-- Cancel everything and build nothing. -/
  | clear
  deriving DecidableEq, Repr

structure Engine where
  audio : AudioConfig
  /-- When the schedule of the next day takes over. -/
  rolloverTime : TimeOfDay
  registry : Registry
  debounce : Debounce Int := {}
  /-- Reports of timers that wait to be handled, the oldest first. -/
  fires : List Fire := []
  commands : List Command := []
  deriving DecidableEq

/-- An engine and what it did to get there. -/
structure Outcome where
  engine : Engine
  actions : List Action := []
  deriving DecidableEq

def Outcome.andThen (o : Outcome) (next : Engine → Outcome) : Outcome :=
  let p := next o.engine
  ⟨p.engine, o.actions ++ p.actions⟩

namespace Engine

/-- An engine that waits for nothing. The configuration has to be valid. -/
def new (config : SchedulerConfig) (clock : Instant) : Except Error Engine := do
  config.validate
  .ok
    { audio := config.audio, rolloverTime := config.engine.rolloverTime
      registry := { timers := { clock } } }

def timers (e : Engine) : Timeline Fire :=
  e.registry.timers

def clock (e : Engine) : Instant :=
  e.timers.clock

def queued (e : Engine) : Nat :=
  e.fires.length + e.commands.length

def request (e : Engine) (command : Command) : Engine :=
  { e with commands := e.commands ++ [command] }

def setClock (e : Engine) (i : Instant) : Engine :=
  { e with registry := e.registry.withTimers (e.timers.setClock i) }

/-- Moves the timers on to `target`. Those that fire report, and the reports wait to be handled.
The number is how many there are. -/
def advanceTo (e : Engine) (target : Instant) : Nat × Engine :=
  let (fired, timers) := e.timers.advanceTo target
  (fired.length,
    { e with
      registry := e.registry.withTimers timers
      fires := e.fires ++ fired.map (·.payload) })

def suppress (e : Engine) (r : Registration) : Outcome :=
  ⟨e, [.suppressed r (e.clock.millis - (e.debounce.lastRun? r.key).getD e.clock.millis)]⟩

/-- Plays the file of a claimed event unless it ran less than a minute ago. -/
def deliver (e : Engine) (r : Registration) : Outcome :=
  let (allowed, debounce) := e.debounce.ask r.key e.clock.millis
  if allowed then
    match e.audio.fileFor r.event with
    | some file => ⟨{ e with debounce }, [.handedOff r file e.clock]⟩
    | none => ⟨{ e with debounce }, [.unvoiced r]⟩
  else e.suppress r

/-- Plays a claimed azan, and a claimed announcement that is still wanted. -/
def notify (e : Engine) (inputs : Inputs) (r : Registration) : Outcome :=
  match r.event.prayer, r.event.kind with
  | none, _ => ⟨e, [.ignored r]⟩
  | some p, .announcement =>
    match inputs.withdrawal? p with
    | some cause => ⟨e, [.withdrawn r cause]⟩
    | none => e.deliver r
  | some _, _ => e.deliver r

end Engine

end Muezzin
