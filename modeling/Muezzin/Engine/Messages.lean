import Muezzin.Engine.Rebuild

/-!
# Handling messages

The reports of timers come before requests, so an event that is due is claimed before a request
replaces the schedule. Handling a message never leaves a new one behind, and a rebuild takes all
reports with it, so the queues get shorter with every message and are empty in the end.
-/

namespace Muezzin

inductive Message where
  | fire (fire : Fire)
  | command (command : Command)
  deriving DecidableEq, Repr

namespace Engine

/-- A fired rollover rebuilds the schedule unless one did less than a minute ago. -/
def rollOver (e : Engine) (inputs : Inputs) (r : Registration) : Outcome :=
  let (allowed, debounce) := e.debounce.ask r.key e.clock.millis
  if allowed then
    (⟨{ e with debounce }, [.rolledOver r e.clock]⟩ : Outcome).andThen (rebuild · inputs)
  else e.suppress r

/-- Claims what a timer reports, if it is still live, and acts on it. -/
def handleFire (e : Engine) (inputs : Inputs) (fire : Fire) : Outcome :=
  let (claimed, registry) := e.registry.takeFired fire
  let e := { e with registry }
  match claimed with
  | none => ⟨e, [.stale fire]⟩
  | some r => if r.event.kind = .rollover then e.rollOver inputs r else e.notify inputs r

def handleCommand (e : Engine) (inputs : Inputs) : Command → Outcome
  | .reschedule reason => (⟨e, [.rescheduling reason]⟩ : Outcome).andThen (rebuild · inputs)
  | .clear =>
    let (count, cleared) := e.clear
    ⟨cleared.engine, cleared.actions ++ [.cleared count]⟩

def handle (e : Engine) (inputs : Inputs) : Message → Outcome
  | .fire fire => e.handleFire inputs fire
  | .command command => e.handleCommand inputs command

def nextMessage? (e : Engine) : Option (Message × Engine) :=
  match e.fires, e.commands with
  | fire :: fires, _ => some (.fire fire, { e with fires })
  | [], command :: commands => some (.command command, { e with commands })
  | [], [] => none

def queues (e : Engine) : List Fire × List Command :=
  (e.fires, e.commands)

theorem queues_deliver (e : Engine) (r : Registration) :
    (e.deliver r).engine.queues = e.queues := by
  unfold deliver
  split
  split
  · split <;> rfl
  · rfl

theorem queues_notify (e : Engine) (inputs : Inputs) (r : Registration) :
    (e.notify inputs r).engine.queues = e.queues := by
  unfold notify
  split
  · rfl
  · split
    · rfl
    · exact queues_deliver e r
  · exact queues_deliver e r

theorem queues_settleAll (inputs : Inputs) (rs : List Registration) (e : Engine) :
    (settleAll inputs rs e).engine.queues = e.queues := by
  induction rs generalizing e with
  | nil => rfl
  | cons r rs ih =>
    have hfirst : (settleDue inputs r e).engine.queues = e.queues := by
      unfold settleDue
      split
      · rfl
      · exact queues_notify e inputs r
    exact (ih _).trans hfirst

theorem queues_arm (events : List Event) (e : Engine) :
    (arm events e).engine.queues = e.queues := by
  induction events generalizing e with
  | nil => rfl
  | cons event events ih => exact ih _

theorem queues_build (e : Engine) (inputs : Inputs) (cancelled : Nat) :
    (e.build inputs cancelled).engine.queues = e.queues := by
  simp only [build, Outcome.andThen]
  split
  · exact queues_arm _ _
  · rfl

/-- A rebuild takes all reports of timers with it and leaves the requests alone. -/
theorem queues_rebuild (e : Engine) (inputs : Inputs) :
    (e.rebuild inputs).engine.queues = ([], e.commands) :=
  (queues_build _ _ _).trans (queues_settleAll _ _ _)

theorem queued_eq_of_queues {e f : Engine} (h : e.queues = f.queues) : e.queued = f.queued := by
  simp only [queues, Prod.mk.injEq] at h
  simp [queued, h]

theorem queued_rebuild_le (e : Engine) (inputs : Inputs) :
    (e.rebuild inputs).engine.queued ≤ e.queued := by
  have h := queues_rebuild e inputs
  simp only [queues, Prod.mk.injEq] at h
  simp [queued, h]

theorem queued_handle_le (e : Engine) (inputs : Inputs) (message : Message) :
    (e.handle inputs message).engine.queued ≤ e.queued := by
  cases message with
  | fire fire =>
    simp only [handle, handleFire]
    split
    · exact Nat.le_refl _
    · split
      · unfold rollOver
        split
        split
        · exact queued_rebuild_le _ inputs
        · exact Nat.le_refl _
      · exact Nat.le_of_eq (queued_eq_of_queues (queues_notify _ inputs _))
  | command command =>
    cases command with
    | reschedule reason => exact queued_rebuild_le e inputs
    | clear => exact Nat.le_refl _

theorem queued_nextMessage? {e rest : Engine} {message : Message}
    (h : e.nextMessage? = some (message, rest)) : e.queued = rest.queued + 1 := by
  unfold nextMessage? at h
  split at h
  · next fires hfires =>
    cases h
    simp only [queued, hfires, List.length_cons]
    omega
  · next commands hfires hcommands =>
    cases h
    simp only [queued, hfires, hcommands, List.length_cons]
    omega
  · simp at h

/-- Handles messages until none is left, and counts those that it took from the queues. -/
def processPending (e : Engine) (inputs : Inputs) : Nat × Outcome :=
  match h : e.nextMessage? with
  | none => (0, ⟨e, []⟩)
  | some (message, rest) =>
    have := queued_nextMessage? h
    have := queued_handle_le rest inputs message
    let handled := rest.handle inputs message
    let (count, o) := handled.engine.processPending inputs
    (count + 1, ⟨o.engine, handled.actions ++ o.actions⟩)
termination_by e.queued

end Engine

end Muezzin
