import Mathlib
import Muezzin.Proofs.ScriptedAdvances

/-!
# Advancing in steps

It makes no difference whether a timeline is advanced to an instant at once or with stops on the
way. At a stop nothing that is due waits, and the clock is moved to it; what fires next is due later
and moves the clock on as far as it would have without the stop. What the callbacks do has no part
in this: they may arm and cancel timers, read and set the clock and advance the timeline themselves.
-/

namespace Muezzin

namespace Instant

theorem later_later_of_lt {a b c : Instant} (hbefore : b < c) :
    (a.later b).later c = a.later c := by
  have horder : b.millis < c.millis := hbefore
  unfold later
  by_cases hfirst : a < b
  · have horder' : a.millis < b.millis := hfirst
    rw [if_pos hfirst, if_pos hbefore, if_pos (show a < c from Int.lt_trans horder' horder)]
  · rw [if_neg hfirst]

end Instant

namespace Timeline

section Pop

variable {α : Type} {t u : Timeline α} {first second : Instant} {timer : Timer α}

/-- What fires up to a stop is what fires first beyond it. -/
theorem popDue?_of_le (hwithin : first ≤ second) (hpopped : t.popDue? first = some (timer, u)) :
    t.popDue? second = some (timer, u) := by
  rw [popDue?_eq_some_iff] at hpopped ⊢
  exact ⟨hpopped.1, Instant.le_trans hpopped.2.1 hwithin, hpopped.2.2⟩

theorem popDue?_eq_none_of_le (hwithin : first ≤ second) (hidle : t.popDue? second = none) :
    t.popDue? first = none := by
  cases hpopped : t.popDue? first with
  | none => rfl
  | some taken =>
    rw [popDue?_of_le hwithin hpopped] at hidle
    cases hidle

theorem popDue?_moveClock (t : Timeline α) (i target : Instant) :
    (t.moveClock i).popDue? target =
      (t.popDue? target).map fun popped => (popped.1, popped.2.moveClock i) := by
  unfold popDue?
  rw [show (t.moveClock i).pending = t.pending from rfl]
  cases earliest? _ <;> rfl

end Pop

/-- What callbacks do. The timer has been taken out and the clock is where it fires; a callback
reports something and leaves a timeline, and may do whatever else it likes on the way. -/
abbrev Acts (α ρ : Type) : Type :=
  Timer α → Timeline α → List ρ → Timeline α → Prop

/-- An advance to `target`, with all that is reported on the way and the number of timers that it
has fired itself. -/
inductive Advances {α ρ : Type} (acts : Acts α ρ) (target : Instant) :
    Timeline α → List ρ → Nat → Timeline α → Prop
  | stop {t : Timeline α} (hidle : t.popDue? target = none) :
    Advances acts target t [] 0 (t.moveClock target)
  | fire {t u v w : Timeline α} {timer : Timer α} {first later : List ρ} {count : Nat}
    (hpopped : t.popDue? target = some (timer, u))
    (hacted : acts timer (u.moveClock timer.due) first v)
    (hrest : Advances acts target v later count w) :
    Advances acts target t (first ++ later) (count + 1) w

namespace Advances

variable {α ρ : Type} {acts : Acts α ρ} {first second : Instant} {t u w : Timeline α}
  {reports : List ρ} {count : Nat}

/-- Where nothing is due up to a stop, it makes no difference to have come there. -/
theorem moveClock_iff (hbefore : first < second) (hidle : t.popDue? first = none) :
    Advances acts second (t.moveClock first) reports count w ↔
      Advances acts second t reports count w := by
  have hends : (t.moveClock first).moveClock second = t.moveClock second :=
    congrArg t.setClock (Instant.later_later_of_lt hbefore)
  -- what is due beyond the stop moves the clock as far with the stop as without
  have hfires {timer : Timer α} {u : Timeline α} (hpopped : t.popDue? second = some (timer, u)) :
      (u.moveClock first).moveClock timer.due = u.moveClock timer.due := by
    obtain ⟨hwaits, -, rfl⟩ := mem_of_popDue? hpopped
    have hlater : first < timer.due := Int.not_le.1 (not_due_of_popDue? hidle timer hwaits)
    exact congrArg (t.cancel timer.id).setClock (Instant.later_later_of_lt hlater)
  constructor
  · intro hadvances
    cases hadvances with
    | stop hnone =>
      rw [popDue?_moveClock, Option.map_eq_none_iff] at hnone
      rw [hends]
      exact .stop hnone
    | fire hpopped hacted hrest =>
      rw [popDue?_moveClock, Option.map_eq_some_iff] at hpopped
      obtain ⟨⟨timer, u⟩, hpopped, hsame⟩ := hpopped
      cases hsame
      exact .fire hpopped (hfires hpopped ▸ hacted) hrest
  · intro hadvances
    cases hadvances with
    | stop hnone =>
      rw [← hends]
      exact .stop (by rw [popDue?_moveClock, hnone]; rfl)
    | fire hpopped hacted hrest =>
      have hpopped' := (popDue?_moveClock t first second).trans (congrArg (Option.map _) hpopped)
      exact .fire hpopped' ((hfires hpopped).symm ▸ hacted) hrest

/-- An advance is one to a stop on the way and then one from there. -/
theorem iff_exists_stop (hbefore : first < second) :
    Advances acts second t reports count w ↔
      ∃ reports₁ count₁ u reports₂ count₂, Advances acts first t reports₁ count₁ u ∧
        Advances acts second u reports₂ count₂ w ∧
        reports = reports₁ ++ reports₂ ∧ count = count₁ + count₂ := by
  constructor
  · intro hadvances
    induction hadvances with
    | stop hidle =>
      have hidle' := popDue?_eq_none_of_le (Int.le_of_lt hbefore) hidle
      exact ⟨[], 0, _, [], 0, .stop hidle', (moveClock_iff hbefore hidle').2 (.stop hidle),
        rfl, rfl⟩
    | @fire t u v w timer here later count hpopped hacted hrest ih =>
      cases hidle : t.popDue? first with
      | none =>
        refine ⟨[], 0, _, here ++ later, count + 1, .stop hidle, ?_, rfl, (Nat.zero_add _).symm⟩
        exact (moveClock_iff hbefore hidle).2 (.fire hpopped hacted hrest)
      | some taken =>
        rw [popDue?_of_le (Int.le_of_lt hbefore) hidle] at hpopped
        cases hpopped
        obtain ⟨reports₁, count₁, mid, reports₂, count₂, hupTo, honward, rfl, rfl⟩ := ih
        exact ⟨here ++ reports₁, count₁ + 1, mid, reports₂, count₂, .fire hidle hacted hupTo,
          honward, (List.append_assoc _ _ _).symm, Nat.add_right_comm _ _ _⟩
  · rintro ⟨reports₁, count₁, u, reports₂, count₂, hupTo, honward, rfl, rfl⟩
    induction hupTo with
    | stop hidle =>
      rw [List.nil_append, Nat.zero_add]
      exact (moveClock_iff hbefore hidle).1 honward
    | fire hpopped hacted hrest ih =>
      rw [List.append_assoc, Nat.add_right_comm]
      exact .fire (popDue?_of_le (Int.le_of_lt hbefore) hpopped) hacted (ih honward)

end Advances

/-! ### Scripts as callbacks -/

/-- A script reports what the clock reads when it begins, and what is read while it is run. -/
def plays : Acts Scripted Reading := fun timer t reports u =>
  reports = ⟨timer.payload.name, t.clock⟩ :: (t.runFrames [.steps timer.payload.steps]).1 ∧
    u = (t.runFrames [.steps timer.payload.steps]).2.2

theorem runFrames_of_idle {t : Timeline Scripted} {target : Instant}
    (hidle : t.popDue? target = none) (count : Nat) {frames : List Frame} (hmore : frames ≠ []) :
    t.runFrames (.advance target count :: frames) = (t.moveClock target).runFrames frames := by
  rw [runFrames]
  split
  · next hpopped =>
    rw [hidle] at hpopped
    cases hpopped
  · rw [if_neg (by rwa [List.isEmpty_iff])]

/-- The frames that are on top are taken to their end before those below. -/
theorem runFrames_append (t : Timeline Scripted) (frames : List Frame) {below : List Frame}
    (hmore : below ≠ []) :
    t.runFrames (frames ++ below) =
      let (readings, _, u) := t.runFrames frames
      (readings ++ (u.runFrames below).1, (u.runFrames below).2) := by
  fun_induction Timeline.runFrames t frames with
  | case1 t => rfl
  | case2 t frames ih =>
    rw [List.cons_append, runFrames]
    exact ih
  | case3 t name due next rest frames ih =>
    rw [List.cons_append, runFrames]
    exact ih
  | case4 t id rest frames ih =>
    rw [List.cons_append, runFrames]
    exact ih
  | case5 t target rest frames ih =>
    rw [List.cons_append, runFrames]
    exact ih
  | case6 t millis rest frames ih =>
    rw [List.cons_append, runFrames]
    exact ih
  | case7 t rest frames ih =>
    rw [List.cons_append, runFrames]
    exact ih
  | case8 t i rest frames ih =>
    rw [List.cons_append, runFrames]
    exact ih
  | case9 t target count frames timer rest hpopped hshorter u readings total v hran ih =>
    rw [hran] at ih
    rw [List.cons_append, runFrames_of_some hpopped]
    exact congrArg (fun run => (_ :: run.1, run.2)) ih
  | case10 t target count frames hidle hlast =>
    rw [List.isEmpty_iff.1 hlast]
    exact runFrames_of_idle hidle count hmore
  | case11 t target count frames hidle hnotLast ih =>
    have habove : frames ++ below ≠ [] := List.append_ne_nil_of_right_ne_nil _ hmore
    rw [List.cons_append, runFrames_of_idle hidle count habove]
    exact ih

theorem scriptWeight_runFrames_le (t : Timeline Scripted) (frames : List Frame) :
    scriptWeight (t.runFrames frames).2.2.pending ≤
      scriptWeight t.pending + Frame.weights frames := by
  fun_induction Timeline.runFrames t frames with
  | case1 t => exact Nat.le_refl _
  | case2 t frames ih =>
    rw [Frame.weights]
    omega
  | case3 t name due next rest frames ih =>
    simp only [schedule, scriptWeight_append, scriptWeight, Frame.weights, Frame.weight,
      Step.weights, Step.weight] at ih ⊢
    omega
  | case4 t id rest frames ih =>
    have := scriptWeight_filter_le (·.id != id) t.pending
    simp only [cancel, Frame.weights, Frame.weight, Step.weights, Step.weight] at ih ⊢
    omega
  | case5 t target rest frames ih =>
    simp only [Frame.weights, Frame.weight, Step.weights, Step.weight] at ih ⊢
    omega
  | case6 t millis rest frames ih =>
    simp only [Frame.weights, Frame.weight, Step.weights, Step.weight] at ih ⊢
    omega
  | case7 t rest frames ih =>
    simp only [Frame.weights, Frame.weight, Step.weights, Step.weight] at ih ⊢
    omega
  | case8 t i rest frames ih =>
    simp only [setClock, Frame.weights, Frame.weight, Step.weights, Step.weight] at ih ⊢
    omega
  | case9 t target count frames timer rest hpopped hshorter u readings total v hran ih =>
    have hsame : scriptWeight u.pending = scriptWeight rest.pending := rfl
    rw [hran] at ih
    simp only [Frame.weights, Frame.weight] at ih ⊢
    omega
  | case10 t target count frames hidle hlast => exact Nat.le_add_right _ _
  | case11 t target count frames hidle hnotLast ih =>
    have hsame : scriptWeight (t.moveClock target).pending = scriptWeight t.pending := rfl
    rw [Frame.weights]
    omega

namespace Advances

variable {t u : Timeline Scripted} {target : Instant} {readings : List Reading} {count : Nat}

theorem runFrames_eq (hadvances : Advances plays target t readings count u) (before : Nat) :
    t.runFrames [.advance target before] = (readings, before + count, u) := by
  induction hadvances generalizing before with
  | stop hidle => exact runFrames_of_none hidle before
  | @fire t u v w timer first later count hpopped hacted hrest ih =>
    obtain ⟨rfl, rfl⟩ := hacted
    have hsplit := runFrames_append (u.moveClock timer.due) [.steps timer.payload.steps]
      (List.cons_ne_nil (.advance target (before + 1)) [])
    rw [List.singleton_append] at hsplit
    rw [runFrames_of_some hpopped, hsplit, ← Nat.add_assoc, Nat.add_right_comm]
    exact congrArg (fun run => (_ :: (_ ++ run.1), run.2)) (ih (before + 1))

theorem exists_plays (t : Timeline Scripted) (target : Instant) :
    ∃ readings count u, Advances plays target t readings count u := by
  induction weight : scriptWeight t.pending using Nat.strongRecOn generalizing t with
  | ind n ih =>
    cases hpopped : t.popDue? target with
    | none => exact ⟨_, _, _, .stop hpopped⟩
    | some taken =>
      obtain ⟨timer, rest⟩ := taken
      let v := ((rest.moveClock timer.due).runFrames [.steps timer.payload.steps]).2.2
      have htaken := scriptWeight_popDue? hpopped
      have hlighter : scriptWeight v.pending ≤
          scriptWeight rest.pending + Frame.weights [.steps timer.payload.steps] :=
        scriptWeight_runFrames_le (rest.moveClock timer.due) _
      simp only [Frame.weights, Frame.weight] at hlighter
      obtain ⟨readings, count, u, honward⟩ := ih (scriptWeight v.pending) (by omega) v rfl
      exact ⟨_, _, u, .fire hpopped ⟨rfl, rfl⟩ honward⟩

theorem plays_iff : Advances plays target t readings count u ↔
    t.runTo target = (readings, count, u) := by
  have hruns {readings count u} (hadvances : Advances plays target t readings count u) :
      t.runTo target = (readings, count, u) := by
    rw [runTo, hadvances.runFrames_eq, Nat.zero_add]
  refine ⟨hruns, fun hrun => ?_⟩
  obtain ⟨readings', count', u', hadvances⟩ := exists_plays t target
  rw [hruns hadvances] at hrun
  cases hrun
  exact hadvances

end Advances

/-- An advance with a stop on the way runs the same callbacks in the same order as the advance that
does not stop, with the same readings and reports, and leaves the same timeline; the numbers add up.
This is so of scripts, and of whatever callbacks may do. -/
theorem runTo_stepped {first second : Instant} (hbefore : first < second) :
    (∀ t : Timeline Scripted,
      let (readings₁, count₁, u) := t.runTo first
      let (readings₂, count₂, v) := u.runTo second
      t.runTo second = (readings₁ ++ readings₂, count₁ + count₂, v)) ∧
    ∀ {α ρ : Type} (acts : Acts α ρ) (t v : Timeline α) (reports : List ρ) (count : Nat),
      Advances acts second t reports count v ↔
        ∃ reports₁ count₁ u reports₂ count₂, Advances acts first t reports₁ count₁ u ∧
          Advances acts second u reports₂ count₂ v ∧
          reports = reports₁ ++ reports₂ ∧ count = count₁ + count₂ := by
  refine ⟨fun t => ?_, fun acts t v reports count => Advances.iff_exists_stop hbefore⟩
  dsimp only
  refine Advances.plays_iff.1 ((Advances.iff_exists_stop hbefore).2 ?_)
  exact ⟨_, _, _, _, _, Advances.plays_iff.2 rfl, Advances.plays_iff.2 rfl, rfl, rfl⟩

/-- The first script arms a timer that is overdue, advances beyond the stop and sets the clock
back. -/
theorem runTo_stepped_nested :
    let t : Timeline Scripted := follow { clock := ⟨0, .utc⟩ }
      [.schedule "first" (.fixed ⟨1000, .utc⟩)
        [.schedule "overdue" (.fixed ⟨500, .utc⟩) [], .schedule "between" (.after 800) [.fireDue],
          .advanceTo ⟨2500, .utc⟩, .setClock ⟨200, .utc⟩],
        .schedule "last" (.fixed ⟨2700, .utc⟩) []]
    let (readings₁, count₁, u) := t.runTo ⟨2000, .utc⟩
    let (readings₂, count₂, v) := u.runTo ⟨3000, .utc⟩
    (readings₁.length, count₁, u.clock) = (3, 1, ⟨2000, .utc⟩) ∧
      t.runTo ⟨3000, .utc⟩ = (readings₁ ++ readings₂, count₁ + count₂, v) := by
  intro t
  refine ⟨?_, (runTo_stepped (by decide)).1 t⟩
  simp only [t]
  cbv

end Timeline

end Muezzin
