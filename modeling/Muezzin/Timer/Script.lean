import Muezzin.Timer.Timeline

/-!
# Timers that act when they fire

A timer may carry a script: steps that arm and cancel further timers, set the clock, or advance the
timeline while it is being advanced. Scripts are finite trees, and a run is a list of frames, the
innermost first: the rest of a script, or an advance that goes on when the scripts it started are
done. Each move takes a step off a script, a timer off the timeline or a frame off the list, and the
weights below make that a number that falls.
-/

namespace Muezzin

inductive Deadline where
  | fixed (i : Instant)
  /-- So many milliseconds after the clock's reading. -/
  | after (millis : Int)
  deriving DecidableEq, Repr

def Deadline.resolve (clock : Instant) : Deadline → Instant
  | .fixed i => i
  | .after millis => clock.addMillis millis

inductive Step where
  /-- Arm a timer that runs `next` when it fires. -/
  | schedule (name : String) (due : Deadline) (next : List Step)
  | cancel (id : Nat)
  | advanceTo (target : Instant)
  | advance (millis : Int)
  | fireDue
  | setClock (i : Instant)

structure Scripted where
  name : String
  steps : List Step

structure Reading where
  name : String
  clock : Instant
  deriving DecidableEq, Repr

namespace Step

mutual

def weight : Step → Nat
  | .schedule _ _ next => 3 + weights next
  | .cancel _ => 1
  | .advanceTo _ => 2
  | .advance _ => 2
  | .fireDue => 2
  | .setClock _ => 1

def weights : List Step → Nat
  | [] => 0
  | s :: rest => s.weight + weights rest

end

end Step

inductive Frame where
  | steps (rest : List Step)
  /-- An advance that has run `count` timers so far. -/
  | advance (target : Instant) (count : Nat)

namespace Frame

def weight : Frame → Nat
  | .steps rest => 1 + Step.weights rest
  | .advance _ _ => 1

def weights : List Frame → Nat
  | [] => 0
  | frame :: rest => frame.weight + weights rest

end Frame

namespace Timeline

def scriptWeight : List (Timer Scripted) → Nat
  | [] => 0
  | timer :: rest => 2 + Step.weights timer.payload.steps + scriptWeight rest

theorem scriptWeight_append (timers others : List (Timer Scripted)) :
    scriptWeight (timers ++ others) = scriptWeight timers + scriptWeight others := by
  induction timers with
  | nil => simp [scriptWeight]
  | cons timer rest ih =>
    simp only [List.cons_append, scriptWeight, ih]
    omega

theorem scriptWeight_filter_le (p : Timer Scripted → Bool) (timers : List (Timer Scripted)) :
    scriptWeight (timers.filter p) ≤ scriptWeight timers := by
  induction timers with
  | nil => simp
  | cons timer rest ih =>
    rw [List.filter_cons, scriptWeight]
    split
    · rw [scriptWeight]
      omega
    · omega

theorem scriptWeight_cancel {timers : List (Timer Scripted)} {timer : Timer Scripted}
    (h : timer ∈ timers) :
    scriptWeight (timers.filter (·.id != timer.id)) + (2 + Step.weights timer.payload.steps) ≤
      scriptWeight timers := by
  induction timers with
  | nil => simp at h
  | cons first rest ih =>
    rcases List.mem_cons.1 h with rfl | h
    · have := scriptWeight_filter_le (·.id != timer.id) rest
      simp only [scriptWeight, List.filter_cons, bne_self_eq_false, Bool.false_eq_true,
        if_false] at this ⊢
      omega
    · have := ih h
      rw [List.filter_cons, scriptWeight]
      split
      · rw [scriptWeight]
        omega
      · omega

theorem scriptWeight_popDue? {t u : Timeline Scripted} {target : Instant}
    {timer : Timer Scripted} (h : t.popDue? target = some (timer, u)) :
    scriptWeight u.pending + (2 + Step.weights timer.payload.steps) ≤ scriptWeight t.pending := by
  obtain ⟨hmem, -, rfl⟩ := mem_of_popDue? h
  exact scriptWeight_cancel hmem

/-- Takes the frames to their end. Gives what the timers read, in the order in which they fired, the
number of timers that the outermost advance ran, and the timeline at the end. -/
def runFrames (t : Timeline Scripted) : List Frame → List Reading × Nat × Timeline Scripted
  | [] => ([], 0, t)
  | .steps [] :: frames => t.runFrames frames
  | .steps (.schedule name due next :: rest) :: frames =>
    (t.schedule (due.resolve t.clock) ⟨name, next⟩).2.runFrames (.steps rest :: frames)
  | .steps (.cancel id :: rest) :: frames => (t.cancel id).runFrames (.steps rest :: frames)
  | .steps (.advanceTo target :: rest) :: frames =>
    t.runFrames (.advance target 0 :: .steps rest :: frames)
  | .steps (.advance millis :: rest) :: frames =>
    t.runFrames (.advance (t.clock.addMillis millis) 0 :: .steps rest :: frames)
  | .steps (.fireDue :: rest) :: frames =>
    t.runFrames (.advance t.clock 0 :: .steps rest :: frames)
  | .steps (.setClock i :: rest) :: frames => (t.setClock i).runFrames (.steps rest :: frames)
  | .advance target count :: frames =>
    match h : t.popDue? target with
    | some (timer, u) =>
      have := scriptWeight_popDue? h
      let u := u.moveClock timer.due
      let (readings, total, v) :=
        u.runFrames (.steps timer.payload.steps :: .advance target (count + 1) :: frames)
      (⟨timer.payload.name, u.clock⟩ :: readings, total, v)
    | none =>
      if frames.isEmpty then ([], count, t.moveClock target)
      else (t.moveClock target).runFrames frames
termination_by frames => scriptWeight t.pending + Frame.weights frames
decreasing_by
  · simp [Frame.weights, Frame.weight, Step.weights]
  · simp only [Frame.weights, Frame.weight, Step.weights, Step.weight, schedule,
      scriptWeight_append, scriptWeight]
    omega
  · have := scriptWeight_filter_le (·.id != id) t.pending
    simp only [Frame.weights, Frame.weight, Step.weights, Step.weight, cancel]
    omega
  · simp only [Frame.weights, Frame.weight, Step.weights, Step.weight]
    omega
  · simp only [Frame.weights, Frame.weight, Step.weights, Step.weight]
    omega
  · simp only [Frame.weights, Frame.weight, Step.weights, Step.weight]
    omega
  · simp only [Frame.weights, Frame.weight, Step.weights, Step.weight, setClock]
    omega
  · simp only [Frame.weights, Frame.weight, moveClock, setClock]
    omega
  · simp only [Frame.weights, Frame.weight, moveClock, setClock]
    omega

def runTo (t : Timeline Scripted) (target : Instant) : List Reading × Nat × Timeline Scripted :=
  t.runFrames [.advance target 0]

/-- Takes one step from outside. The number is that of the timer armed or of the timers run, if the
step has one. -/
def perform (t : Timeline Scripted) (s : Step) :
    Option Nat × List Reading × Timeline Scripted :=
  let run := fun target =>
    let (readings, count, u) := t.runTo target
    (some count, readings, u)
  match s with
  | .schedule name due next =>
    let (id, u) := t.schedule (due.resolve t.clock) ⟨name, next⟩
    (some id, [], u)
  | .cancel id => (none, [], t.cancel id)
  | .advanceTo target => run target
  | .advance millis => run (t.clock.addMillis millis)
  | .fireDue => run t.clock
  | .setClock i => (none, [], t.setClock i)

end Timeline

end Muezzin
