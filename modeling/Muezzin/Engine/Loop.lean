import Muezzin.Engine.Messages

/-!
# The loop

A running engine watches its settings from before the first schedule is built, so no change is
missed. It then takes one message at a time: a report of a timer if there is one, else a request,
else a change of the settings. Only when none of them waits does it listen to the signal to stop.
-/

namespace Muezzin

structure Loop where
  engine : Engine
  feed : ChangeFeed := .empty
  deriving DecidableEq

namespace Loop

def start (engine : Engine) (inputs : Inputs) : Loop × List Action :=
  let o := engine.rebuild inputs
  (⟨o.engine, .empty⟩, .started :: o.actions)

def handleChange (e : Engine) (inputs : Inputs) (change : SettingsChange) : Outcome :=
  (⟨e, [.changed change]⟩ : Outcome).andThen (Engine.rebuild · inputs)

def waiting (l : Loop) : Nat :=
  l.engine.queued + l.feed.size

/-- Takes one message and handles it; nothing if none waits. -/
def turn? (l : Loop) (inputs : Inputs) : Option (Loop × List Action) :=
  match l.engine.nextMessage? with
  | some (message, rest) =>
    let o := rest.handle inputs message
    some ({ l with engine := o.engine }, o.actions)
  | none =>
    match l.feed.next? with
    | some (change, feed) =>
      let o := handleChange l.engine inputs change
      some (⟨o.engine, feed⟩, o.actions)
    | none => none

theorem waiting_turn?_lt {l next : Loop} {inputs : Inputs} {actions : List Action}
    (h : l.turn? inputs = some (next, actions)) : next.waiting < l.waiting := by
  unfold turn? at h
  split at h
  · next message rest hmessage =>
    cases h
    have := Engine.queued_nextMessage? hmessage
    have := Engine.queued_handle_le rest inputs message
    simp only [waiting]
    omega
  · split at h
    · next change feed hfeed =>
      cases h
      have := ChangeFeed.size_next? hfeed
      have := Engine.queued_rebuild_le l.engine inputs
      simp only [waiting, handleChange, Outcome.andThen]
      omega
    · simp at h

def settle (l : Loop) (inputs : Inputs) : Loop × List Action :=
  match h : l.turn? inputs with
  | none => (l, [])
  | some (next, actions) =>
    have := waiting_turn?_lt h
    let (last, later) := next.settle inputs
    (last, actions ++ later)
termination_by l.waiting

/-- Stops on a signal, once nothing waits any more, and cancels everything. -/
def stop (l : Loop) (inputs : Inputs) : Loop × List Action :=
  let (l, actions) := l.settle inputs
  let (count, cleared) := l.engine.clear
  ({ l with engine := cleared.engine },
    actions ++ .signalled :: (cleared.actions ++ [.stopped count]))

end Loop

end Muezzin
