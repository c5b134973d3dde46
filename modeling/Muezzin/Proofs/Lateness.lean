import Muezzin.Proofs.SleepingRuns

/-!
# How late a sleeping timer can be

The clock may jump, and time passes evenly, so lateness is measured in time that passes. No task
ever sleeps longer than a slice from now. It stays as it is until it is aborted or gets a turn with
its sleep over, and where all tasks are asleep no such turn is outstanding. So a slice later every
live timer's task has looked at the clock, and if the deadline had come it has fired.
-/

namespace Muezzin

namespace SleepingTimers

variable {α : Type}

/-- All tasks that could get a turn have had it. -/
def Settled (t : SleepingTimers α) : Prop :=
  ∀ task ∈ t.tasks, t.isAwake task = false

instance (t : SleepingTimers α) : Decidable t.Settled :=
  inferInstanceAs (Decidable (∀ task ∈ t.tasks, t.isAwake task = false))

theorem isAwake_eq_false {t : SleepingTimers α} {task : SleepingTask α} :
    t.isAwake task = false ↔
      task.aborted = false ∧ ∃ wake, task.wake = some wake ∧ t.elapsed < wake := by
  cases hsleeps : task.wake <;> simp [isAwake, hsleeps]

theorem isAwake_congr {t u : SleepingTimers α} (h : t.elapsed = u.elapsed)
    (task : SleepingTask α) : t.isAwake task = u.isAwake task := by
  simp only [isAwake, h]

/-! ## Settling -/

theorem nap_pos {t : SleepingTimers α} {due : Instant} (hearly : ¬ due ≤ t.clock) :
    0 < t.nap due := by
  have hahead : t.clock.millis < due.millis := Int.lt_of_not_ge hearly
  have := t.slice_pos
  simp only [nap]
  omega

theorem asleep_or_mem {t : SleepingTimers α} {id : Nat} {task : SleepingTask α}
    (hmem : task ∈ (t.turn id).2.tasks) :
    t.isAwake task = false ∨ task ∈ t.tasks ∧ task.timer.id ≠ id := by
  have hspec := t.turn_spec id
  generalize t.turn id = out at hspec hmem
  cases hspec with
  | rests hasleep =>
    by_cases hown : task.timer.id = id
    · exact .inl (hasleep task hmem hown)
    · exact .inr ⟨hmem, hown⟩
  | ends | fires =>
    obtain ⟨hmem, hother⟩ := List.mem_filter.1 hmem
    exact .inr ⟨hmem, by simpa using hother⟩
  | dozes turned _ hown _ hrunning hearly =>
    obtain ⟨old, hold, rfl⟩ := List.mem_map.1 hmem
    split
    · exact .inl (isAwake_eq_false.2 ⟨hrunning, _, rfl, Nat.lt_add_of_pos_right (nap_pos hearly)⟩)
    · next hother => exact .inr ⟨hold, hown ▸ hother⟩

theorem asleep_of_turns {t : SleepingTimers α} {ids : List Nat} {task : SleepingTask α}
    (hmem : task ∈ (t.turns ids).2.tasks) :
    t.isAwake task = false ∨ task ∈ t.tasks ∧ task.timer.id ∉ ids := by
  induction ids generalizing t with
  | nil => exact .inr ⟨hmem, List.not_mem_nil⟩
  | cons id ids ih =>
    rcases ih (t := (t.turn id).2) hmem with hasleep | ⟨hleft, hother⟩
    · exact .inl (isAwake_congr (t.elapsed_turn id) task ▸ hasleep)
    · refine (asleep_or_mem hleft).imp_right fun ⟨hold, hown⟩ => ⟨hold, ?_⟩
      simpa using ⟨hown, hother⟩

/-- Turns for all tasks leave them all asleep. -/
theorem settled_settle (t : SleepingTimers α) : t.settle.2.Settled := by
  intro task hmem
  rw [isAwake_congr t.elapsed_settle]
  refine (asleep_of_turns hmem).resolve_right fun ⟨hold, hunturned⟩ => ?_
  exact hunturned (List.mem_map_of_mem hold)

/-! ## A task keeps its appointment -/

/-- Nobody sleeps longer than a slice from now. -/
def Attentive (t : SleepingTimers α) : Prop :=
  ∀ task ∈ t.tasks, ∀ wake, task.wake = some wake → wake ≤ t.elapsed + t.slice

theorem Attentive.abort {t : SleepingTimers α} (hattentive : t.Attentive) (ids : List Nat) :
    (t.abort ids).Attentive := by
  intro task hmem
  obtain ⟨old, hold, rfl⟩ := List.mem_map.1 hmem
  rw [apply_ite SleepingTask.wake, ite_self]
  exact hattentive old hold

theorem Attentive.perform {t : SleepingTimers α} (hattentive : t.Attentive) (move : Move α) :
    (t.perform move).1.Attentive := by
  cases move with
  | schedule due payload =>
    simp only [SleepingTimers.perform, schedule]
    split
    · intro task hmem
      rcases List.mem_append.1 hmem with hmem | hmem
      · exact hattentive task hmem
      · cases List.mem_singleton.1 hmem
        intro wake hnever
        cases hnever
    · exact hattentive
  | cancel id =>
    simp only [SleepingTimers.perform, cancel]
    split
    · exact hattentive.abort [id]
    · exact hattentive
  | turn id =>
    have hspec := t.turn_spec id
    simp only [SleepingTimers.perform]
    generalize t.turn id = out at hspec ⊢
    cases hspec with
    | rests => exact hattentive
    | ends | fires => exact fun task hmem => hattentive task (List.mem_of_mem_filter hmem)
    | dozes turned =>
      intro task hmem wake hsleeps
      obtain ⟨old, hold, rfl⟩ := List.mem_map.1 hmem
      split at hsleeps
      · cases hsleeps
        exact Nat.add_le_add_left (Nat.min_le_right _ _) _
      · exact hattentive old hold wake hsleeps
  | setClock i => exact hattentive
  | pass millis =>
    intro task hmem wake hsleeps
    have := hattentive task hmem wake hsleeps
    show wake ≤ t.elapsed + millis + t.slice
    omega
  | close => exact hattentive.abort t.live

theorem attentive_run {t : SleepingTimers α} (hattentive : t.Attentive) (moves : List (Move α)) :
    (t.run moves).1.Attentive ∧ (t.run moves).1.slice = t.slice := by
  induction moves generalizing t with
  | nil => exact ⟨hattentive, rfl⟩
  | cons move moves ih =>
    obtain ⟨hlast, hslice⟩ := ih (hattentive.perform move)
    exact ⟨hlast, hslice.trans (t.perform_frame move).1⟩

namespace Tally

variable {t : SleepingTimers α} {d : Diary α}

/-- What one move can do to a task that has not been aborted. -/
theorem stays_or_turns (htally : t.Tally d) {task : SleepingTask α} (hmem : task ∈ t.tasks)
    (hrunning : task.aborted = false) (move : Move α) :
    task ∈ (t.perform move).1.tasks ∨ task.timer.id ∈ (t.perform move).2.cancelled ∨
      move = .turn task.timer.id ∧ t.isAwake task := by
  have hlive := (htally.running task hmem).1 hrunning
  cases move with
  | schedule due payload =>
    refine .inl ?_
    simp only [SleepingTimers.perform, SleepingTimers.schedule]
    split
    · exact List.mem_append_left _ hmem
    · exact hmem
  | cancel id =>
    by_cases hown : task.timer.id = id
    · subst hown
      exact .inr (.inl (by simp [SleepingTimers.perform, hlive]))
    · refine .inl ?_
      simp only [SleepingTimers.perform, SleepingTimers.cancel]
      split
      · refine List.mem_map.2 ⟨task, hmem, if_neg ?_⟩
        simpa using hown
      · exact hmem
  | setClock | pass => exact .inl hmem
  | turn id =>
    have hspec := t.turn_spec id
    simp only [SleepingTimers.perform]
    generalize t.turn id = out at hspec ⊢
    by_cases hown : task.timer.id = id
    · cases hspec with
      | rests => exact .inl hmem
      | ends other hother hsame hawake | fires other hother hsame hawake
      | dozes other hother hsame hawake =>
        obtain rfl := htally.eq_of_id_eq hother hmem (hsame.trans hown.symm)
        exact .inr (.inr ⟨hown ▸ rfl, hawake⟩)
    · cases hspec with
      | rests => exact .inl hmem
      | ends | fires => exact .inl (List.mem_filter.2 ⟨hmem, by simpa using hown⟩)
      | dozes other _ hsame =>
        exact .inl (List.mem_map.2 ⟨task, hmem, if_neg fun h => hown (h.trans hsame)⟩)
  | close => exact .inr (.inl hlive)

/-- Where everything has settled after the end of its sleep, a task has had its turn or been
aborted. -/
theorem looks (htally : t.Tally d) {task : SleepingTask α} (hmem : task ∈ t.tasks)
    (hrunning : task.aborted = false) {after : List (Move α)}
    (hsettled : (t.run after).1.Settled)
    (hrested : ∀ wake, task.wake = some wake → wake ≤ (t.run after).1.elapsed) :
    task.timer.id ∈ (t.run after).2.cancelled ∨
      ∃ mid rest, after = mid ++ .turn task.timer.id :: rest ∧ task ∈ (t.run mid).1.tasks ∧
        (t.run mid).1.isAwake task := by
  induction after generalizing t d with
  | nil =>
    obtain ⟨-, wake, hsleeps, hahead⟩ := isAwake_eq_false.1 (hsettled task hmem)
    exact absurd (hrested wake hsleeps) (Nat.not_le.2 hahead)
  | cons move after ih =>
    rcases htally.stays_or_turns hmem hrunning move with hstays | hcancelled | ⟨rfl, hawake⟩
    · rcases ih (htally.perform move) hstays hsettled hrested with hlater | ⟨mid, rest, rfl, hturn⟩
      · exact .inl (List.mem_append_right _ hlater)
      · exact .inr ⟨move :: mid, rest, rfl, hturn⟩
    · exact .inl (List.mem_append_left _ hcancelled)
    · exact .inr ⟨[], after, rfl, hmem, hawake⟩

theorem fires_of_due (htally : t.Tally d) {task : SleepingTask α} (hmem : task ∈ t.tasks)
    (hrunning : task.aborted = false) (hawake : t.isAwake task) (hdue : task.timer.due ≤ t.clock) :
    (t.perform (.turn task.timer.id)).2.fired = [task.timer] := by
  have hspec := t.turn_spec task.timer.id
  simp only [SleepingTimers.perform]
  generalize t.turn task.timer.id = out at hspec ⊢
  cases hspec with
  | rests hasleep => exact absurd hawake (by simp [hasleep task hmem rfl])
  | ends other hother hsame _ hended =>
    obtain rfl := htally.eq_of_id_eq hother hmem hsame
    rcases hended with haborted | hgone
    · exact absurd hrunning (by simp [haborted])
    · exact absurd ((htally.running other hmem).1 hrunning) hgone
  | fires other hother hsame =>
    obtain rfl := htally.eq_of_id_eq hother hmem hsame
    rfl
  | dozes other hother hsame _ _ hearly =>
    obtain rfl := htally.eq_of_id_eq hother hmem hsame
    exact absurd hdue hearly

theorem task_of_live (htally : t.Tally d) {timer : Timer α} (harmed : timer ∈ d.armed)
    (hlive : timer.id ∈ t.live) : ∃ task ∈ t.tasks, task.timer = timer ∧ task.aborted = false := by
  obtain ⟨task, hmem, hown⟩ := htally.attended timer.id hlive
  refine ⟨task, hmem, ?_, (htally.running task hmem).2 (hown ▸ hlive)⟩
  exact List.inj_on_of_nodup_map htally.armed_nodup (htally.armed task hmem) harmed hown

/-- A slice after its deadline has come, a timer has ended where everything has settled. -/
theorem ended_of_due (htally : t.Tally d) (hattentive : t.Attentive) {timer : Timer α}
    (harmed : timer ∈ d.armed) (hlive : timer.id ∈ t.live) (after : List (Move α))
    (hsettled : (t.run after).1.Settled) (hlate : t.elapsed + t.slice ≤ (t.run after).1.elapsed)
    (hdue : ∀ mid, mid <+: after → timer.due ≤ (t.run mid).1.clock) :
    timer ∈ (t.run after).2.fired ∨ timer.id ∈ (t.run after).2.cancelled := by
  obtain ⟨task, hmem, rfl, hrunning⟩ := htally.task_of_live harmed hlive
  have hrested : ∀ wake, task.wake = some wake → wake ≤ (t.run after).1.elapsed :=
    fun wake hsleeps => Nat.le_trans (hattentive task hmem wake hsleeps) hlate
  rcases htally.looks hmem hrunning hsettled hrested with hcancelled |
    ⟨mid, rest, rfl, hstill, hawake⟩
  · exact .inr hcancelled
  · refine .inl ?_
    have hreached := hdue mid (List.prefix_append _ _)
    have hfires := (htally.run mid).fires_of_due hstill hrunning hawake hreached
    simp only [run_append, SleepingTimers.run, Diary.add, hfires, List.mem_append, List.mem_cons,
      true_or, or_true]

end Tally

/-- A deadline that has come remains so while the clock is not set back before it. -/
theorem due_run {t : SleepingTimers α} {due : Instant} (hnow : due ≤ t.clock)
    {moves : List (Move α)} (hkept : ∀ i, .setClock i ∈ moves → due ≤ i) :
    due ≤ (t.run moves).1.clock := by
  induction moves generalizing t with
  | nil => exact hnow
  | cons move moves ih =>
    refine ih ?_ fun i hset => hkept i (List.mem_cons_of_mem _ hset)
    rcases (t.perform_frame move).2.2 with hsame | hset
    · exact hsame ▸ hnow
    · exact hkept _ (hset ▸ List.mem_cons_self)

/-- When a slice has passed and every task has had its turn, all timers have fired whose deadline
has come. -/
theorem fired_of_due {t : SleepingTimers α} {d : Diary α} (htally : t.Tally d)
    (hattentive : t.Attentive) {timer : Timer α} (harmed : timer ∈ d.armed)
    (hlive : timer.id ∈ t.live) (hdue : timer.due ≤ t.clock) :
    timer ∈ (t.pass t.slice).settle.1 := by
  let after : List (Move α) := .pass t.slice :: (t.tasks.map (·.timer.id)).map .turn
  have hran : t.run after =
      ((t.pass t.slice).settle.2, { fired := (t.pass t.slice).settle.1 }) := by
    simp only [after, run, perform, run_turns, Diary.empty_add]
    rfl
  have hended := htally.ended_of_due hattentive harmed hlive after ?_ ?_ fun mid hpart => ?_
  · simpa [hran] using hended
  · rw [hran]
    exact settled_settle _
  · rw [hran, elapsed_settle]
    exact Nat.le_refl _
  · exact due_run hdue fun i hset => by simpa [after] using hpart.subset hset

/-- Where everything has settled, every live timer looks at the clock next within a slice, unless
it is cancelled first. If the clock shows its deadline or a later instant from then on, it has fired
or been cancelled wherever everything has settled and a slice has passed. -/
theorem lateness_bounded (clock : Instant) (slice : Nat) (before : List (Move α)) {timer : Timer α}
    (hsettled : ((new clock slice).run before).1.Settled)
    (harmed : timer ∈ ((new clock slice).run before).2.armed)
    (hlive : timer.id ∈ ((new clock slice).run before).1.live) :
    let t := ((new clock slice).run before).1
    (∃ wake, ⟨timer, some wake, false⟩ ∈ t.tasks ∧ t.elapsed < wake ∧
      wake ≤ t.elapsed + max slice 1 ∧
      ∀ after, (t.run after).1.Settled → wake ≤ (t.run after).1.elapsed →
        timer.id ∈ (t.run after).2.cancelled ∨
          ∃ mid rest, after = mid ++ .turn timer.id :: rest ∧
            ⟨timer, some wake, false⟩ ∈ (t.run mid).1.tasks ∧ wake ≤ (t.run mid).1.elapsed) ∧
      ∀ after, (t.run after).1.Settled → t.elapsed + max slice 1 ≤ (t.run after).1.elapsed →
        (∀ mid, mid <+: after → timer.due ≤ (t.run mid).1.clock) →
        timer ∈ (t.run after).2.fired ∨ timer.id ∈ (t.run after).2.cancelled := by
  intro t
  have htally : t.Tally _ := tally_run clock slice before
  obtain ⟨hattentive, hsame⟩ := attentive_run (t := new clock slice) (fun _ h => nomatch h) before
  have hbound : t.slice = max slice 1 := hsame
  rw [← hbound]
  refine ⟨?_, fun after => htally.ended_of_due hattentive harmed hlive after⟩
  obtain ⟨⟨_, wake?, _⟩, hmem, rfl, rfl⟩ := htally.task_of_live harmed hlive
  obtain ⟨-, wake, rfl, hahead⟩ := isAwake_eq_false.1 (hsettled _ hmem)
  refine ⟨wake, hmem, hahead, hattentive _ hmem wake rfl, fun after hquiet hreached => ?_⟩
  have hrested : ∀ w, some wake = some w → w ≤ (t.run after).1.elapsed := by
    rintro _ ⟨⟩
    exact hreached
  refine (htally.looks hmem rfl hquiet hrested).imp_right ?_
  rintro ⟨mid, rest, rfl, hstill, hawake⟩
  exact ⟨mid, rest, rfl, hstill, by simpa [isAwake] using hawake⟩

/-- The deadline is days away when the timer goes to sleep, and then the clock jumps past it. -/
theorem lateness_bounded_clock_jump :
    let timer : Timer Unit := ⟨1, ⟨1000000000, .utc⟩, ()⟩
    let t := ((new ⟨0, .utc⟩ 50).run
      [.schedule timer.due (), .turn 1, .setClock ⟨1000000005, .utc⟩]).1
    t.Settled ∧ (t.run [.pass 50, .turn 1]).1.Settled ∧
      (timer ∈ (t.run [.pass 50, .turn 1]).2.fired ∨
        timer.id ∈ (t.run [.pass 50, .turn 1]).2.cancelled) := by
  intro timer t
  let before : List (Move Unit) :=
    [.schedule timer.due (), .turn 1, .setClock ⟨1000000005, .utc⟩]
  have hsettled : t.Settled := by decide
  have harmed : timer ∈ ((new ⟨0, .utc⟩ 50).run before).2.armed := by decide
  have hlive : timer.id ∈ t.live := by decide
  have hlater : (t.run [.pass 50, .turn 1]).1.Settled := by decide
  have hdue : ∀ mid, mid <+: [.pass 50, .turn 1] → timer.due ≤ (t.run mid).1.clock :=
    fun mid hpart => due_run (by decide) fun i hset => by simpa using hpart.subset hset
  have hended := (lateness_bounded ⟨0, .utc⟩ 50 before hsettled harmed hlive).2
  exact ⟨hsettled, hlater, hended _ hlater (by decide) hdue⟩

end SleepingTimers

end Muezzin
