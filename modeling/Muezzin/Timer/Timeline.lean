import Muezzin.Calendar.Instant

/-!
# Timers on a clock that is moved by hand

A timeline is a clock and the timers that wait on it. Advancing it moves the clock from deadline to
deadline, in the order of the deadlines and for equal ones in the order of arming, and never
backwards; whoever looks at the clock while a timer fires reads the instant the timer was due, or a
later one if it was armed too late.
-/

namespace Muezzin

structure Timer (α : Type) where
  id : Nat
  due : Instant
  payload : α
  deriving DecidableEq, Repr

structure Timeline (α : Type) where
  clock : Instant
  pending : List (Timer α) := []
  issued : Nat := 0
  deriving DecidableEq, Repr

namespace Timeline

variable {α : Type}

def setClock (t : Timeline α) (i : Instant) : Timeline α :=
  { t with clock := i }

/-- Moves the clock forward to `i`, not backwards. -/
def moveClock (t : Timeline α) (i : Instant) : Timeline α :=
  t.setClock (t.clock.later i)

def schedule (t : Timeline α) (due : Instant) (payload : α) : Nat × Timeline α :=
  let id := t.issued + 1
  (id, { t with pending := t.pending ++ [⟨id, due, payload⟩], issued := id })

def cancel (t : Timeline α) (id : Nat) : Timeline α :=
  { t with pending := t.pending.filter (·.id != id) }

/-- The timer with the least deadline, the first of several. -/
def earliest? : List (Timer α) → Option (Timer α)
  | [] => none
  | timer :: rest =>
    match earliest? rest with
    | none => some timer
    | some best => if best.due < timer.due then some best else some timer

def nextDue? (t : Timeline α) : Option Instant :=
  (earliest? t.pending).map Timer.due

def popDue? (t : Timeline α) (target : Instant) : Option (Timer α × Timeline α) :=
  match earliest? (t.pending.filter (·.due ≤ target)) with
  | none => none
  | some timer => some (timer, t.cancel timer.id)

theorem mem_of_earliest? {ts : List (Timer α)} {timer : Timer α} (h : earliest? ts = some timer) :
    timer ∈ ts := by
  induction ts generalizing timer with
  | nil => simp [earliest?] at h
  | cons first rest ih =>
    rw [earliest?] at h
    split at h
    · simp_all
    · next best hbest =>
      split at h
      · cases h
        exact List.mem_cons_of_mem _ (ih hbest)
      · simp_all

theorem mem_of_popDue? {t u : Timeline α} {target : Instant} {timer : Timer α}
    (h : t.popDue? target = some (timer, u)) :
    timer ∈ t.pending ∧ timer.due ≤ target ∧ u = t.cancel timer.id := by
  unfold popDue? at h
  split at h
  · simp at h
  · next first hfirst =>
    cases h
    have := mem_of_earliest? hfirst
    simp only [List.mem_filter, decide_eq_true_eq] at this
    exact ⟨this.1, this.2, rfl⟩

theorem length_cancel_lt {t : Timeline α} {timer : Timer α} (h : timer ∈ t.pending) :
    (t.cancel timer.id).pending.length < t.pending.length := by
  apply List.length_filter_lt_length_iff_exists.2
  exact ⟨timer, h, by simp⟩

theorem length_popDue?_lt {t u : Timeline α} {target : Instant} {timer : Timer α}
    (h : t.popDue? target = some (timer, u)) : u.pending.length < t.pending.length := by
  obtain ⟨hmem, -, rfl⟩ := mem_of_popDue? h
  exact length_cancel_lt hmem

def advanceTo (t : Timeline α) (target : Instant) : List (Timer α) × Timeline α :=
  match h : t.popDue? target with
  | none => ([], t.moveClock target)
  | some (timer, u) =>
    have := length_popDue?_lt h
    let (fired, v) := (u.moveClock timer.due).advanceTo target
    (timer :: fired, v)
termination_by t.pending.length
decreasing_by
  exact this

def advance (t : Timeline α) (n : Int) : List (Timer α) × Timeline α :=
  t.advanceTo (t.clock.addMillis n)

def fireDue (t : Timeline α) : List (Timer α) × Timeline α :=
  t.advanceTo t.clock

end Timeline

end Muezzin
