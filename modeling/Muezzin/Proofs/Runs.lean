import Muezzin.Engine.Messages

/-!
# Runs of an engine that is driven by hand

A run is a list of operations, in any order. Each operation that asks for times and settings brings
the answers of that moment with it, so between two operations anything about them may change or
fail. What a run did is the list of all actions of its operations, and what is true of every run is
true of every engine that can come about.
-/

namespace Muezzin

inductive Operation where
  | rebuild (inputs : Inputs)
  | clear
  | request (command : Command)
  | next (inputs : Inputs)
  | process (inputs : Inputs)
  | advanceTo (target : Instant)
  | setClock (i : Instant)

/-- Inputs that never fail and have the same azan and its announcement on every date. -/
def Inputs.daily (p : Prayer) (time : TimeOfDay) : Inputs where
  times := fun _ => .ok (some (.new (PrayerTable.empty.insert p time) .empty))
  settings := .ok (some (PrayerTable.empty.insert p .allEnabled))
  flags := .ok ⟨true, true⟩

@[simp] theorem Outcome.actions_andThen (o : Outcome) (next : Engine → Outcome) :
    (o.andThen next).actions = o.actions ++ (next o.engine).actions := rfl

namespace Engine

def perform (e : Engine) : Operation → Outcome
  | .rebuild inputs => e.rebuild inputs
  | .clear => e.clear.2
  | .request command => ⟨e.request command, []⟩
  | .next inputs =>
    match e.nextMessage? with
    | some (message, rest) => rest.handle inputs message
    | none => ⟨e, []⟩
  | .process inputs => (e.processPending inputs).2
  | .advanceTo target => ⟨(e.advanceTo target).2, []⟩
  | .setClock i => ⟨e.setClock i, []⟩

def run (e : Engine) : List Operation → Outcome
  | [] => ⟨e, []⟩
  | op :: ops => (e.perform op).andThen (·.run ops)

theorem run_cons (e : Engine) (op : Operation) (ops : List Operation) :
    e.run (op :: ops) = (e.perform op).andThen (·.run ops) := rfl

theorem run_append (e : Engine) (before after : List Operation) :
    e.run (before ++ after) = (e.run before).andThen (·.run after) := by
  induction before generalizing e with
  | nil => rfl
  | cons op before ih =>
    rw [List.cons_append, run_cons, run_cons]
    simp only [Outcome.andThen, ih, List.append_assoc]

theorem actions_run_append (e : Engine) (before after : List Operation) :
    (e.run (before ++ after)).actions =
      (e.run before).actions ++ ((e.run before).engine.run after).actions := by
  rw [run_append]
  rfl

theorem engine_run_append (e : Engine) (before after : List Operation) :
    (e.run (before ++ after)).engine = ((e.run before).engine.run after).engine := by
  rw [run_append]
  rfl

theorem processPending_none {e : Engine} (hidle : e.nextMessage? = none) (inputs : Inputs) :
    e.processPending inputs = (0, ⟨e, []⟩) := by
  unfold processPending
  split
  · rfl
  · next message rest hmessage =>
    rw [hidle] at hmessage
    simp at hmessage

theorem processPending_some {e rest : Engine} {message : Message}
    (hwaiting : e.nextMessage? = some (message, rest)) (inputs : Inputs) :
    (e.processPending inputs).2 =
      (rest.handle inputs message).andThen fun e => (e.processPending inputs).2 := by
  rw [processPending]
  split
  · next hidle =>
    rw [hwaiting] at hidle
    simp at hidle
  · next other rest' hmessage =>
    rw [hwaiting] at hmessage
    cases hmessage
    rfl

/-- Handling all messages is handling them one by one: what every message keeps is kept, whatever
the engine it is handled by. -/
theorem processPending_induction {inputs : Inputs} {motive : Engine → Outcome → Prop}
    (hidle : ∀ e, e.nextMessage? = none → motive e ⟨e, []⟩)
    (hstep : ∀ e rest message, e.nextMessage? = some (message, rest) →
      motive (rest.handle inputs message).engine
        ((rest.handle inputs message).engine.processPending inputs).2 →
      motive e ((rest.handle inputs message).andThen fun e => (e.processPending inputs).2))
    (e : Engine) : motive e (e.processPending inputs).2 := by
  match h : e.nextMessage? with
  | none =>
    rw [processPending_none h]
    exact hidle e h
  | some (message, rest) =>
    rw [processPending_some h]
    exact hstep e rest message h
      (processPending_induction hidle hstep (rest.handle inputs message).engine)
termination_by e.queued
decreasing_by
  have := queued_nextMessage? h
  have := queued_handle_le rest inputs message
  omega

end Engine

end Muezzin
