import Muezzin.Timer.Timeline

/-!
# Timers that sleep in slices

Every timer has a task of its own. When the task gets a turn it looks at the clock; if the deadline
has come it fires, and otherwise it sleeps for what is left, but no longer than a slice. Sleep is
measured in time that passes evenly, whereas the clock may be set forwards and backwards meanwhile,
so a slice bounds how late a task notices that the clock has jumped. A timer is live while its
number is listed. The task that fires and whoever cancels have to take the number off the list, and
the first to do so has the timer.

A turn ends where the task would wait, as on a runtime with one thread: the number comes off the
list and the timer fires in the same turn. With several threads a cancellation could come between
the two and find no number, and the timer would fire after it. That is not expressed here.
-/

namespace Muezzin

structure SleepingTask (α : Type) where
  timer : Timer α
  /-- When the task wakes from its sleep; a new task has not slept yet. -/
  wake : Option Nat := none
  /-- An aborted task ends where it would get its next turn. -/
  aborted : Bool := false
  deriving DecidableEq, Repr

structure SleepingTimers (α : Type) where
  clock : Instant
  slice : Nat
  slice_pos : 0 < slice
  /-- Milliseconds that have passed, whatever the clock shows. -/
  elapsed : Nat := 0
  /-- The numbers of the timers that have neither fired nor been cancelled. -/
  live : List Nat := []
  tasks : List (SleepingTask α) := []
  issued : Nat := 0
  /-- Nothing can be armed once the timers are closed. -/
  isOpen : Bool := true

namespace SleepingTimers

variable {α : Type}

def defaultSlice : Nat := 30000

/-- No timers yet. A slice has at least one millisecond. -/
def new (clock : Instant) (slice : Nat) : SleepingTimers α :=
  { clock, slice := max slice 1, slice_pos := by omega }

def setClock (t : SleepingTimers α) (i : Instant) : SleepingTimers α :=
  { t with clock := i }

/-- Lets time pass; no task gets a turn. -/
def pass (t : SleepingTimers α) (millis : Nat) : SleepingTimers α :=
  { t with elapsed := t.elapsed + millis }

def schedule (t : SleepingTimers α) (due : Instant) (payload : α) :
    Option Nat × SleepingTimers α :=
  if t.isOpen then
    let id := t.issued + 1
    let task : SleepingTask α := { timer := ⟨id, due, payload⟩ }
    (some id, { t with live := t.live ++ [id], tasks := t.tasks ++ [task], issued := id })
  else (none, t)

def unlist (t : SleepingTimers α) (id : Nat) : SleepingTimers α :=
  { t with live := t.live.erase id }

def abort (t : SleepingTimers α) (ids : List Nat) : SleepingTimers α :=
  { t with
    tasks := t.tasks.map fun task =>
      if task.timer.id ∈ ids then { task with aborted := true } else task }

/-- Nothing happens if the timer has fired or been cancelled before. -/
def cancel (t : SleepingTimers α) (id : Nat) : SleepingTimers α :=
  if id ∈ t.live then (t.unlist id).abort [id] else t

def close (t : SleepingTimers α) : SleepingTimers α :=
  { t.abort t.live with live := [], isOpen := false }

/-- How many timers have neither fired nor been cancelled; `none` once closed. -/
def liveCount? (t : SleepingTimers α) : Option Nat :=
  if t.isOpen then some t.live.length else none

/-- A task gets a turn when it is new, when its sleep is over and when it has been aborted. -/
def isAwake (t : SleepingTimers α) (task : SleepingTask α) : Bool :=
  task.aborted || task.wake.all (· ≤ t.elapsed)

def nap (t : SleepingTimers α) (due : Instant) : Nat :=
  min (due.millis - t.clock.millis).toNat t.slice

def finish (t : SleepingTimers α) (id : Nat) : SleepingTimers α :=
  { t with tasks := t.tasks.filter (·.timer.id != id) }

def doze (t : SleepingTimers α) (task : SleepingTask α) : SleepingTimers α :=
  let asleep := { task with wake := some (t.elapsed + t.nap task.timer.due) }
  { t with tasks := t.tasks.map fun k => if k.timer.id = task.timer.id then asleep else k }

/-- One undivided turn of the task with the number `id`, which gives its timer if it fires. A task
that does not exist or is asleep does nothing. -/
def turn (t : SleepingTimers α) (id : Nat) : Option (Timer α) × SleepingTimers α :=
  match t.tasks.find? fun task => task.timer.id == id && t.isAwake task with
  | none => (none, t)
  | some task =>
    if task.aborted then (none, t.finish id)
    else if task.timer.due ≤ t.clock then
      if id ∈ t.live then (some task.timer, (t.finish id).unlist id) else (none, t.finish id)
    else (none, t.doze task)

def turns (t : SleepingTimers α) : List Nat → List (Timer α) × SleepingTimers α
  | [] => ([], t)
  | id :: ids =>
    let (fired, u) := t.turn id
    let (later, v) := u.turns ids
    (fired.toList ++ later, v)

/-- One turn for every task, after which all of them are asleep. -/
def settle (t : SleepingTimers α) : List (Timer α) × SleepingTimers α :=
  t.turns (t.tasks.map (·.timer.id))

def nextWake? (t : SleepingTimers α) : Option Nat :=
  ((t.tasks.filterMap SleepingTask.wake).filter (t.elapsed < ·)).min?

theorem elapsed_turn (t : SleepingTimers α) (id : Nat) : (t.turn id).2.elapsed = t.elapsed := by
  unfold turn
  split
  · rfl
  · split
    · rfl
    · split
      · split <;> rfl
      · rfl

theorem elapsed_turns (t : SleepingTimers α) (ids : List Nat) :
    (t.turns ids).2.elapsed = t.elapsed := by
  induction ids generalizing t with
  | nil => rfl
  | cons id ids ih => simp [turns, ih, elapsed_turn]

theorem elapsed_settle (t : SleepingTimers α) : t.settle.2.elapsed = t.elapsed :=
  elapsed_turns t _

theorem lt_of_nextWake? {t : SleepingTimers α} {wake : Nat} (h : t.nextWake? = some wake) :
    t.elapsed < wake := by
  have := List.min?_mem h
  simp only [List.mem_filter, decide_eq_true_eq] at this
  exact this.2

def nextStop (t : SleepingTimers α) (target : Nat) : Nat :=
  match t.nextWake? with
  | some wake => min wake target
  | none => target

theorem lt_nextStop {t : SleepingTimers α} {target : Nat} (h : t.elapsed < target) :
    t.elapsed < t.nextStop target := by
  unfold nextStop
  split
  · next wake hwake =>
    have := lt_of_nextWake? hwake
    omega
  · exact h

def settleAndPass (t : SleepingTimers α) (target : Nat) : List (Timer α) × SleepingTimers α :=
  let (fired, u) := t.settle
  (fired, u.pass (u.nextStop target - u.elapsed))

theorem lt_elapsed_settleAndPass {t : SleepingTimers α} {target : Nat} (h : t.elapsed < target) :
    t.elapsed < (t.settleAndPass target).2.elapsed := by
  have hsame := elapsed_settle t
  have hahead : t.settle.2.elapsed < t.settle.2.nextStop target := lt_nextStop (by omega)
  show t.elapsed < t.settle.2.elapsed + (t.settle.2.nextStop target - t.settle.2.elapsed)
  omega

/-- Lets time pass up to `target`, with turns for all tasks now and whenever one of them wakes on
the way. A task that wakes at the very end has not had its turn yet. -/
def sleepUntil (t : SleepingTimers α) (target : Nat) : List (Timer α) × SleepingTimers α :=
  if h : t.elapsed < target then
    have := lt_elapsed_settleAndPass h
    let stopped := t.settleAndPass target
    let (later, u) := stopped.2.sleepUntil target
    (stopped.1 ++ later, u)
  else ([], t)
termination_by target - t.elapsed

def sleep (t : SleepingTimers α) (millis : Nat) : List (Timer α) × SleepingTimers α :=
  t.sleepUntil (t.elapsed + millis)

end SleepingTimers

end Muezzin
