import Muezzin.Engine.Messages
import Muezzin.Host.Tree
import Muezzin.Notifier
import Muezzin.Rehearsal.Listener

/-!
# Rehearsals

A rehearsal is an engine on a clock that is moved by hand, with times and settings that can be
changed and made to fail, and with a speaker and a listener. What the engine hands off waits until
the deliveries get their turn.
-/

namespace Muezzin

inductive TimesOrigin where
  | memory
  | configured (storage : Storage)
  deriving DecidableEq, Repr

inductive SettingsOrigin where
  /-- The memory of the rehearsal, which also tells of changes if it is watched. -/
  | memory (watched : Bool)
  | configured (storage : Storage)
  deriving DecidableEq, Repr

inductive Output where
  | speaker (s : Speaker)
  | configured (config : NotifierConfig)
  deriving DecidableEq, Repr

inductive FaultSlot where
  | times
  | settings
  | flags
  deriving DecidableEq, Repr

structure Faults where
  times : Option Error := none
  settings : Option Error := none
  flags : Option Error := none
  deriving DecidableEq, Repr

def Faults.set (f : Faults) (slot : FaultSlot) (e : Option Error) : Faults :=
  match slot with
  | .times => { f with times := e }
  | .settings => { f with settings := e }
  | .flags => { f with flags := e }

structure Delivery where
  key : String
  file : String
  deriving DecidableEq, Repr

structure Rehearsal where
  engine : Engine
  events : EventChannel
  times : MemoryTimes := {}
  settings : MemorySettings := {}
  timesFrom : TimesOrigin := .memory
  settingsFrom : SettingsOrigin := .memory true
  faults : Faults := {}
  tree : Tree := {}
  output : Output := .speaker {}
  deliveries : List Delivery := []
  played : List String := []

namespace Rehearsal

/-- An engine with the given configuration and with memory that holds nothing yet. -/
def new (config : SchedulerConfig) (clock : Instant) : Except Error Rehearsal := do
  let engine ← Engine.new config clock
  .ok { engine, events := { capacity := config.engine.eventCapacity.toNat } }

def useConfigured (r : Rehearsal) (config : SchedulerConfig) : Rehearsal :=
  { r with
    timesFrom := .configured config.prayerSource
    settingsFrom := .configured config.settingsStore }

def source (r : Rehearsal) : PrayerSource :=
  match r.timesFrom with
  | .memory => r.times.source
  | .configured storage => storage.source r.tree.host

def store (r : Rehearsal) : SettingsStore :=
  match r.settingsFrom with
  | .memory _ => r.settings.store
  | .configured storage => storage.store r.tree.host

def orFault {α : Type} (fault : Option Error) (result : Except Error α) : Except Error α :=
  match fault with
  | some e => .error e
  | none => result

def inputs (r : Rehearsal) : Inputs where
  times := fun date => orFault r.faults.times (r.source.times date)
  complaints := fun date => if r.faults.times.isSome then [] else r.source.complaints date
  settings := orFault r.faults.settings r.store.settings
  flags := orFault r.faults.flags r.store.flags

/-- Takes note of what the engine did: events go to the listener, files wait for delivery. -/
def record (r : Rehearsal) (engine : Engine) (actions : List Action) : Rehearsal :=
  let handedOff := (actions.filterMap Action.delivery?).map fun d => ⟨d.1.key, d.2⟩
  { r with
    engine
    events := r.events.sendAll (actions.filterMap Action.event?)
    deliveries := r.deliveries ++ handedOff }

def recordOutcome (r : Rehearsal) (o : Outcome) : Rehearsal :=
  r.record o.engine o.actions

def outcome? (r : Rehearsal) (d : Delivery) : Option EngineEvent :=
  match r.output with
  | .speaker s => s.outcome? d.key d.file
  | .configured config =>
    match config.deliver r.tree.host d.file with
    | .ok _ => some (.fired d.key d.file)
    | .error e => some (.notificationFailed d.key e)

def heard (r : Rehearsal) (d : Delivery) : List String :=
  match r.output with
  | .speaker _ => [d.file]
  | .configured _ => []

def runDeliveries (r : Rehearsal) : Rehearsal :=
  { r with
    deliveries := []
    events := r.events.sendAll (r.deliveries.filterMap r.outcome?)
    played := r.played ++ r.deliveries.flatMap r.heard }

def withEngine (r : Rehearsal) (engine : Engine) : Rehearsal :=
  { r with engine }

def rebuild (r : Rehearsal) : Nat × Rehearsal :=
  let o := r.engine.rebuild r.inputs
  (o.engine.registry.size, r.recordOutcome o)

def clear (r : Rehearsal) : Nat × Rehearsal :=
  let (count, o) := r.engine.clear
  (count, r.recordOutcome o)

def process (r : Rehearsal) : Nat × Rehearsal :=
  let (count, o) := r.engine.processPending r.inputs
  (count, r.recordOutcome o)

/-- Moves the timers on; what they report waits to be handled. -/
def advanceTimers (r : Rehearsal) (target : Instant) : Nat × Rehearsal :=
  let (count, engine) := r.engine.advanceTo target
  (count, r.withEngine engine)

/-- Moves the timers on, handles what they report and delivers. The numbers are those of the timers
that fired and of the messages handled. -/
def advanceTo (r : Rehearsal) (target : Instant) : (Nat × Nat) × Rehearsal :=
  let (fired, r) := r.advanceTimers target
  let (handled, r) := r.process
  ((fired, handled), r.runDeliveries)

def next? (r : Rehearsal) : Option ((Nat × Nat) × Rehearsal) :=
  r.engine.timers.nextDue?.map r.advanceTo

def collect (r : Rehearsal) : (List EngineEvent × List String) × Rehearsal :=
  let (events, channel) := r.events.drain
  ((events, r.played), { r with events := channel, played := [] })

end Rehearsal

inductive Stimulus where
  | timersTo (target : Instant)
  | timersBy (millis : Int)
  | fireDue
  | setClock (i : Instant)
  | reschedule (reason : String)
  | requestClear
  | setSettings (settings : PrayerSettings)
  | setFlags (flags : FeatureFlags)
  | notify (change : SettingsChange) (count : Nat)
  | insert (date : Date) (times : PrayerTimes)
  | setDefault (times : Option PrayerTimes)
  | clearTimes
  | fault (slot : FaultSlot) (e : Option Error)
  | write (path : String) (content : Option Node)
  | closeEvents

inductive Answer where
  | nothing
  | count (n : Nat)
  | accepted (b : Bool)
  | advanced (fired handled : Nat)
  | several (answers : List Answer)

namespace Rehearsal

def timesPath : String := "times.json"
def settingsPath : String := "settings.json"

/-- Applies a stimulus. Requests are only taken while the engine exists. -/
def apply (r : Rehearsal) (alive : Bool) (s : Stimulus) : Answer × Rehearsal :=
  let advance := fun target =>
    let (count, r) := r.advanceTimers target
    (Answer.count count, r)
  let request := fun command =>
    (Answer.accepted alive, if alive then r.withEngine (r.engine.request command) else r)
  match s with
  | .timersTo target => advance target
  | .timersBy millis => advance (r.engine.clock.addMillis millis)
  | .fireDue => advance r.engine.clock
  | .setClock i => (.nothing, r.withEngine (r.engine.setClock i))
  | .reschedule reason => request (.reschedule reason)
  | .requestClear => request .clear
  | .setSettings settings => (.nothing, { r with settings := r.settings.setPrayers settings })
  | .setFlags flags => (.nothing, { r with settings := r.settings.setFlags flags })
  | .notify change count =>
    (.nothing, { r with settings := Nat.repeat (·.announce change) count r.settings })
  | .insert date times => (.nothing, { r with times := r.times.insert date times })
  | .setDefault times => (.nothing, { r with times := r.times.setDefault times })
  | .clearTimes => (.nothing, { r with times := .empty })
  | .fault slot e => (.nothing, { r with faults := r.faults.set slot e })
  | .write path content => (.nothing, { r with tree := r.tree.write path content })
  | .closeEvents => (.nothing, { r with events := r.events.close })

end Rehearsal

inductive HandOperation where
  | stimulus (s : Stimulus)
  | rebuild
  | clear
  | process
  | runDeliveries
  | advanceTo (target : Instant)
  | advance (millis : Int)
  | next

def Rehearsal.perform (r : Rehearsal) (op : HandOperation) : Answer × Rehearsal :=
  let counted := fun (p : Nat × Rehearsal) => (Answer.count p.1, p.2)
  let moved := fun (p : (Nat × Nat) × Rehearsal) => (Answer.advanced p.1.1 p.1.2, p.2)
  match op with
  | .stimulus s => r.apply true s
  | .rebuild => counted r.rebuild
  | .clear => counted r.clear
  | .process => counted r.process
  | .runDeliveries => (.nothing, r.runDeliveries)
  | .advanceTo target => moved (r.advanceTo target)
  | .advance millis => moved (r.advanceTo (r.engine.clock.addMillis millis))
  | .next =>
    match r.next? with
    | some p => moved p
    | none => (.nothing, r)

end Muezzin
