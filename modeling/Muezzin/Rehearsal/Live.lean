import Muezzin.Engine.Loop
import Muezzin.Rehearsal.Basic

/-!
# Rehearsals of the loop

Here the engine runs by itself. After every operation it handles what waits, then the deliveries
get their turn, and if the signal to stop has come the loop ends. Deliveries that have not begun
when the loop ends are given up with the engine.
-/

namespace Muezzin

inductive StopSignal where
  /-- A sender that is used or given up. -/
  | sender
  | interrupt
  deriving DecidableEq, Repr

structure LiveRehearsal where
  world : Rehearsal
  stopsOn : StopSignal
  senderHeld : Bool := true
  signalled : Bool := false
  running : Bool := true

namespace LiveRehearsal

/-- The changes that the loop has yet to see, if its settings can be watched at all. -/
def feed (r : Rehearsal) : ChangeFeed :=
  r.settings.watchers.headD .empty

/-- The loop takes its feed up before it builds the first schedule. -/
def watch (r : Rehearsal) : Rehearsal :=
  match r.settingsFrom with
  | .memory true => { r with settings := r.settings.watch.2 }
  | _ => r

def recordLoop (r : Rehearsal) (step : Loop × List Action) : Rehearsal :=
  let r := r.record step.1.engine step.2
  let watchers := r.settings.watchers.map fun _ => step.1.feed
  { r with settings := { r.settings with watchers } }

/-- Lets the loop act until nothing waits, and end if it has been told to. -/
def react (l : LiveRehearsal) : LiveRehearsal :=
  if !l.running then l
  else
    let loop : Loop := ⟨l.world.engine, feed l.world⟩
    if l.signalled then
      let world := recordLoop l.world (loop.stop l.world.inputs)
      { l with world := { world with deliveries := [] }, running := false }
    else
      { l with world := (recordLoop l.world (loop.settle l.world.inputs)).runDeliveries }

def start (world : Rehearsal) (stopsOn : StopSignal) : LiveRehearsal :=
  let world := watch world
  let world := recordLoop world (Loop.start world.engine world.inputs)
  react { world, stopsOn }

end LiveRehearsal

inductive LiveOperation where
  | stimulus (s : Stimulus)
  /-- Several stimuli before the loop gets a turn. -/
  | batch (ss : List Stimulus)
  | shutdown
  | dropSender
  | interrupt

namespace LiveRehearsal

def applyAll : List Stimulus → LiveRehearsal → List Answer × LiveRehearsal
  | [], l => ([], l)
  | s :: ss, l =>
    let (answer, world) := l.world.apply l.running s
    let (answers, l) := applyAll ss { l with world }
    (answer :: answers, l)

def useSender (l : LiveRehearsal) : LiveRehearsal :=
  { l with senderHeld := false, signalled := l.signalled || l.stopsOn = .sender }

def prompt (l : LiveRehearsal) : LiveOperation → Answer × LiveRehearsal
  | .stimulus s =>
    let (answer, world) := l.world.apply l.running s
    (answer, { l with world })
  | .batch ss =>
    let (answers, l) := applyAll ss l
    (.several answers, l)
  | .shutdown => if l.senderHeld then (.accepted l.running, l.useSender) else (.nothing, l)
  | .dropSender => if l.senderHeld then (.nothing, l.useSender) else (.nothing, l)
  | .interrupt => (.nothing, { l with signalled := l.signalled || l.stopsOn = .interrupt })

def perform (l : LiveRehearsal) (op : LiveOperation) : Answer × LiveRehearsal :=
  let (answer, l) := l.prompt op
  (answer, l.react)

def finish (l : LiveRehearsal) : LiveRehearsal :=
  { l with signalled := true }.react

end LiveRehearsal

end Muezzin
