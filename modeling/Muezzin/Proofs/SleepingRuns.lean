import Muezzin.Timer.Sleeping
import Mathlib.Data.List.Nodup
import Mathlib.Data.List.Perm.Basic

/-!
# Sleeping timers in any order of turns

Timers may be armed and cancelled, the clock set and time let pass, and the tasks may get their
turns late and in any order. A turn is never interrupted, which is what a runtime with one thread
gives: between the look at the clock and the number coming off the list, and between that and the
firing, nothing else happens. A timer stands in two places, its number on the list and its task
among the tasks, and what keeps the two together is that exactly the tasks which have not been
aborted have a number on the list. A diary is kept of what is armed, of what fires and of what is
cancelled, and every number in it is live, fired or cancelled.
-/

namespace Muezzin

open scoped List

namespace SleepingTimers

variable {α : Type}

inductive Move (α : Type) where
  | schedule (due : Instant) (payload : α)
  | cancel (id : Nat)
  | setClock (i : Instant)
  | pass (millis : Nat)
  | turn (id : Nat)
  | close

structure Diary (α : Type) where
  armed : List (Timer α) := []
  fired : List (Timer α) := []
  /-- The numbers that were cancelled while they were live. -/
  cancelled : List Nat := []

namespace Diary

def add (d e : Diary α) : Diary α where
  armed := d.armed ++ e.armed
  fired := d.fired ++ e.fired
  cancelled := d.cancelled ++ e.cancelled

theorem add_empty (d : Diary α) : d.add {} = d := by
  simp [add]

theorem empty_add (d : Diary α) : Diary.add {} d = d := by
  simp [add]

theorem add_assoc (d e f : Diary α) : (d.add e).add f = d.add (e.add f) := by
  simp [add]

def ended (d : Diary α) : List Nat :=
  d.fired.map Timer.id ++ d.cancelled

theorem mem_ended_add {d e : Diary α} {id : Nat} (h : id ∈ d.ended) : id ∈ (d.add e).ended := by
  simp only [ended, add, List.map_append, List.mem_append] at h ⊢
  tauto

end Diary

def perform (t : SleepingTimers α) : Move α → SleepingTimers α × Diary α
  | .schedule due payload =>
    let (id, u) := t.schedule due payload
    (u, { armed := (id.map fun id => ⟨id, due, payload⟩).toList })
  | .cancel id => (t.cancel id, { cancelled := if id ∈ t.live then [id] else [] })
  | .setClock i => (t.setClock i, {})
  | .pass millis => (t.pass millis, {})
  | .turn id =>
    let (timer, u) := t.turn id
    (u, { fired := timer.toList })
  | .close => (t.close, { cancelled := t.live })

def run (t : SleepingTimers α) : List (Move α) → SleepingTimers α × Diary α
  | [] => (t, {})
  | move :: moves =>
    let (u, entry) := t.perform move
    let (last, rest) := u.run moves
    (last, entry.add rest)

theorem run_append (t : SleepingTimers α) (moves more : List (Move α)) :
    t.run (moves ++ more) =
      (((t.run moves).1.run more).1, (t.run moves).2.add ((t.run moves).1.run more).2) := by
  induction moves generalizing t with
  | nil => simp [run, Diary.empty_add]
  | cons move moves ih => simp [run, ih, Diary.add_assoc]

theorem run_turns (t : SleepingTimers α) (ids : List Nat) :
    t.run (ids.map .turn) = ((t.turns ids).2, { fired := (t.turns ids).1 }) := by
  induction ids generalizing t with
  | nil => rfl
  | cons id ids ih => simp [run, perform, turns, ih, Diary.add]

/-- Sleep is a run in which only timers fire. -/
theorem exists_run_sleepUntil (t : SleepingTimers α) (target : Nat) :
    ∃ moves, t.run moves = ((t.sleepUntil target).2, { fired := (t.sleepUntil target).1 }) := by
  fun_induction sleepUntil t target with
  | case1 t hahead _ stopped later u hlast ih =>
    obtain ⟨rest, hran⟩ := ih
    let millis := t.settle.2.nextStop target - t.settle.2.elapsed
    refine ⟨(t.tasks.map (·.timer.id)).map .turn ++ .pass millis :: rest, ?_⟩
    have hpassed : t.run ((t.tasks.map (·.timer.id)).map .turn ++ .pass millis :: rest) =
        ((stopped.2.run rest).1,
          Diary.add { fired := t.settle.1 } (Diary.add {} (stopped.2.run rest).2)) := by
      rw [run_append, run_turns]
      rfl
    rw [hpassed, hran, hlast, Diary.empty_add]
    rfl
  | case2 t => exact ⟨[], rfl⟩

inductive Turn (t : SleepingTimers α) (id : Nat) : Option (Timer α) × SleepingTimers α → Prop
  | rests (hasleep : ∀ task ∈ t.tasks, task.timer.id = id → t.isAwake task = false) :
    Turn t id (none, t)
  | ends (task : SleepingTask α) (hmem : task ∈ t.tasks) (hown : task.timer.id = id)
    (hawake : t.isAwake task) (hended : task.aborted ∨ id ∉ t.live) : Turn t id (none, t.finish id)
  | fires (task : SleepingTask α) (hmem : task ∈ t.tasks) (hown : task.timer.id = id)
    (hawake : t.isAwake task) (hdue : task.timer.due ≤ t.clock) (hlive : id ∈ t.live) :
    Turn t id (some task.timer, (t.finish id).unlist id)
  | dozes (task : SleepingTask α) (hmem : task ∈ t.tasks) (hown : task.timer.id = id)
    (hawake : t.isAwake task) (hrunning : task.aborted = false)
    (hearly : ¬ task.timer.due ≤ t.clock) : Turn t id (none, t.doze task)

theorem turn_spec (t : SleepingTimers α) (id : Nat) : t.Turn id (t.turn id) := by
  unfold turn
  split
  · next hmissing =>
    refine .rests fun task h hown => ?_
    simpa [hown] using List.find?_eq_none.1 hmissing task h
  · next task hfound =>
    have hmem := List.mem_of_find?_eq_some hfound
    obtain ⟨hown, hawake⟩ : task.timer.id = id ∧ t.isAwake task = true := by
      simpa using List.find?_some hfound
    split
    · next haborted => exact .ends task hmem hown hawake (.inl haborted)
    · next hrunning =>
      split
      · next hdue =>
        split
        · next hlive => exact .fires task hmem hown hawake hdue hlive
        · next hgone => exact .ends task hmem hown hawake (.inr hgone)
      · next hearly => exact .dozes task hmem hown hawake (by simpa using hrunning) hearly

theorem perform_frame (t : SleepingTimers α) (move : Move α) :
    (t.perform move).1.slice = t.slice ∧ ((t.perform move).1.isOpen → t.isOpen) ∧
      ((t.perform move).1.clock = t.clock ∨ move = .setClock (t.perform move).1.clock) := by
  cases move with
  | schedule due payload =>
    simp only [perform, schedule]
    split
    · next hopen => exact ⟨rfl, fun _ => hopen, .inl rfl⟩
    · exact ⟨rfl, id, .inl rfl⟩
  | cancel id =>
    simp only [perform, cancel]
    split <;> exact ⟨rfl, fun hopen => hopen, .inl rfl⟩
  | setClock i => exact ⟨rfl, id, .inr rfl⟩
  | pass millis => exact ⟨rfl, id, .inl rfl⟩
  | turn id =>
    have hspec := t.turn_spec id
    simp only [perform]
    generalize t.turn id = out at hspec ⊢
    cases hspec <;> exact ⟨rfl, fun hopen => hopen, .inl rfl⟩
  | close => exact ⟨rfl, nofun, .inl rfl⟩

/-- Every number that was given out is live, fired or cancelled, and the tasks that have not been
aborted are those of the live ones. -/
structure Tally (t : SleepingTimers α) (d : Diary α) : Prop where
  numbered : d.armed.map Timer.id = List.range' 1 t.issued
  balanced : t.live ++ d.ended ~ d.armed.map Timer.id
  distinct : (t.tasks.map (·.timer.id)).Nodup
  armed : ∀ task ∈ t.tasks, task.timer ∈ d.armed
  attended : ∀ id ∈ t.live, ∃ task ∈ t.tasks, task.timer.id = id
  running : ∀ task ∈ t.tasks, task.aborted = false ↔ task.timer.id ∈ t.live
  closed : t.isOpen = false → t.live = []

namespace Tally

variable {t : SleepingTimers α} {d : Diary α}

theorem new (clock : Instant) (slice : Nat) :
    (SleepingTimers.new clock slice : SleepingTimers α).Tally {} where
  numbered := rfl
  balanced := .nil
  distinct := .nil
  armed := by simp [SleepingTimers.new]
  attended := by simp [SleepingTimers.new]
  running := by simp [SleepingTimers.new]
  closed _ := rfl

theorem armed_nodup (htally : t.Tally d) : (d.armed.map Timer.id).Nodup := by
  rw [htally.numbered]
  exact List.nodup_range'

theorem nodup (htally : t.Tally d) : (t.live ++ d.ended).Nodup :=
  htally.balanced.nodup_iff.2 htally.armed_nodup

theorem live_nodup (htally : t.Tally d) : t.live.Nodup :=
  (List.nodup_append.1 htally.nodup).1

theorem le_issued (htally : t.Tally d) {task : SleepingTask α} (h : task ∈ t.tasks) :
    task.timer.id ≤ t.issued := by
  have hnumber : task.timer.id ∈ d.armed.map Timer.id := List.mem_map_of_mem (htally.armed task h)
  rw [htally.numbered, List.mem_range'_1] at hnumber
  omega

theorem eq_of_id_eq (htally : t.Tally d) {j k : SleepingTask α} (hj : j ∈ t.tasks)
    (hk : k ∈ t.tasks) (hsame : j.timer.id = k.timer.id) : j = k :=
  List.inj_on_of_nodup_map htally.distinct hj hk hsame

/-- What has come to an end is not live. -/
theorem not_live (htally : t.Tally d) {id : Nat} (hended : id ∈ d.ended) : id ∉ t.live :=
  fun hlive => List.disjoint_of_nodup_append htally.nodup hlive hended

theorem schedule (htally : t.Tally d) (due : Instant) (payload : α) :
    (t.perform (.schedule due payload)).1.Tally
      (d.add (t.perform (.schedule due payload)).2) := by
  by_cases hopen : t.isOpen
  · simp only [SleepingTimers.perform, SleepingTimers.schedule, hopen, ↓reduceIte, Option.map_some,
      Option.toList_some]
    have hlater : ∀ task ∈ t.tasks, task.timer.id ≠ t.issued + 1 := by
      intro task h
      have := htally.le_issued h
      omega
    refine ⟨?_, ?_, ?_, fun task h => ?_, fun id h => ?_, fun task h => ?_, fun hshut => ?_⟩
    · simp only [Diary.add, List.map_append, htally.numbered, List.range'_1_concat, Nat.add_comm 1]
      rfl
    · refine List.perm_iff_count.2 fun n => ?_
      have hbefore := htally.balanced.count_eq n
      simp only [Diary.ended, Diary.add, List.append_nil, List.map_append, List.count_append,
        List.map_cons, List.map_nil] at hbefore ⊢
      omega
    · rw [List.map_append]
      refine htally.distinct.append (List.nodup_singleton _) ?_
      simpa [List.disjoint_singleton] using hlater
    · rcases List.mem_append.1 h with h | h
      · exact List.mem_append_left _ (htally.armed task h)
      · cases List.mem_singleton.1 h
        exact List.mem_append_right _ List.mem_cons_self
    · rcases List.mem_append.1 h with h | h
      · obtain ⟨task, hmem, hown⟩ := htally.attended id h
        exact ⟨task, List.mem_append_left _ hmem, hown⟩
      · cases List.mem_singleton.1 h
        exact ⟨_, List.mem_append_right _ List.mem_cons_self, rfl⟩
    · rcases List.mem_append.1 h with h | h
      · simp [htally.running task h, hlater task h]
      · cases List.mem_singleton.1 h
        simp
    · cases hshut
  · simp only [SleepingTimers.perform, SleepingTimers.schedule, hopen]
    exact d.add_empty.symm ▸ htally

/-- Tasks may change while they keep their timers, and numbers may go off the list. -/
theorem change (htally : t.Tally d) {u : SleepingTimers α} {e : Diary α}
    {f : SleepingTask α → SleepingTask α} (htasks : u.tasks = t.tasks.map f)
    (htimers : ∀ k ∈ t.tasks, (f k).timer = k.timer)
    (hrunning : ∀ k ∈ t.tasks, (f k).aborted = false ↔ k.timer.id ∈ u.live)
    (hkept : u.live ⊆ t.live) (hissued : u.issued = t.issued) (harmed : e.armed = d.armed)
    (hbalanced : u.live ++ e.ended ~ d.armed.map Timer.id)
    (hclosed : u.isOpen = false → u.live = []) : u.Tally e where
  numbered := by rw [harmed, hissued, htally.numbered]
  balanced := by rwa [harmed]
  distinct := by
    have hids : u.tasks.map (·.timer.id) = t.tasks.map (·.timer.id) := by
      rw [htasks, List.map_map]
      exact List.map_congr_left fun k h => congrArg Timer.id (htimers k h)
    exact hids ▸ htally.distinct
  armed task h := by
    obtain ⟨k, hmem, rfl⟩ := List.mem_map.1 (htasks ▸ h)
    rw [harmed, htimers k hmem]
    exact htally.armed k hmem
  attended id h := by
    obtain ⟨k, hmem, hown⟩ := htally.attended id (hkept h)
    exact ⟨f k, htasks ▸ List.mem_map_of_mem hmem, htimers k hmem ▸ hown⟩
  running task h := by
    obtain ⟨k, hmem, rfl⟩ := List.mem_map.1 (htasks ▸ h)
    rw [htimers k hmem]
    exact hrunning k hmem
  closed := hclosed

/-- Numbers are taken off the list and their tasks aborted. -/
theorem stop (htally : t.Tally d) {gone kept : List Nat} (hparted : gone ++ kept ~ t.live)
    {isOpen : Bool} (hclosed : isOpen = false → kept = []) :
    Tally { t.abort gone with live := kept, isOpen } (d.add { cancelled := gone }) := by
  have hapart : (gone ++ kept).Nodup := hparted.nodup_iff.2 htally.live_nodup
  refine htally.change rfl (fun k _ => ?_) (fun k hmem => ?_)
    (fun id h => hparted.subset (List.mem_append_right _ h)) rfl (List.append_nil _) ?_ hclosed
  · split <;> rfl
  · split
    · next hstopped =>
      have hout : k.timer.id ∉ kept := List.disjoint_of_nodup_append hapart hstopped
      simpa using hout
    · next hother =>
      rw [htally.running k hmem, ← hparted.mem_iff, List.mem_append]
      exact or_iff_right hother
  · refine List.perm_iff_count.2 fun n => ?_
    have hbefore := htally.balanced.count_eq n
    have hsplit := hparted.count_eq n
    simp only [Diary.ended, Diary.add, List.append_nil, List.count_append] at hbefore hsplit ⊢
    omega

/-- Sleep changes nothing that is counted. -/
theorem doze (htally : t.Tally d) {task : SleepingTask α} (hmem : task ∈ t.tasks) :
    (t.doze task).Tally d := by
  refine htally.change rfl (fun k hk => ?_) (fun k hk => ?_) (fun _ => id) rfl rfl htally.balanced
    htally.closed
  · split
    · next hown => rw [htally.eq_of_id_eq hk hmem hown]
    · rfl
  · rw [apply_ite SleepingTask.aborted]
    split
    · next hown =>
      rw [htally.eq_of_id_eq hk hmem hown]
      exact htally.running task hmem
    · exact htally.running k hk

theorem finish (htally : t.Tally d) {id : Nat} {kept : List Nat} {e : Diary α}
    (hrest : ∀ k, k ∈ kept ↔ k ≠ id ∧ k ∈ t.live) (harmed : e.armed = d.armed)
    (hbalanced : kept ++ e.ended ~ d.armed.map Timer.id) :
    Tally { t.finish id with live := kept } e where
  numbered := harmed ▸ htally.numbered
  balanced := harmed ▸ hbalanced
  distinct := htally.distinct.sublist (List.filter_sublist.map _)
  armed task h := harmed ▸ htally.armed task (List.mem_of_mem_filter h)
  attended k h := by
    obtain ⟨hother, h⟩ := (hrest k).1 h
    obtain ⟨task, hmem, hown⟩ := htally.attended k h
    exact ⟨task, List.mem_filter.2 ⟨hmem, by simpa [hown] using hother⟩, hown⟩
  running task h := by
    obtain ⟨hmem, hother⟩ := List.mem_filter.1 h
    have hother : task.timer.id ≠ id := by simpa using hother
    exact (htally.running task hmem).trans ((hrest _).trans (and_iff_right hother)).symm
  closed hshut := List.eq_nil_iff_forall_not_mem.2 fun k h => by
    have hlive := ((hrest k).1 h).2
    rw [htally.closed hshut] at hlive
    cases hlive

theorem fire (htally : t.Tally d) {timer : Timer α} (hlive : timer.id ∈ t.live) :
    ((t.finish timer.id).unlist timer.id).Tally (d.add { fired := [timer] }) := by
  refine htally.finish (fun k => ?_) (List.append_nil _) ?_
  · exact htally.live_nodup.mem_erase_iff
  · refine List.perm_iff_count.2 fun n => ?_
    have hbefore := htally.balanced.count_eq n
    have htaken := (List.perm_cons_erase hlive).count_eq n
    simp only [Diary.ended, Diary.add, SleepingTimers.finish, List.append_nil, List.map_append,
      List.map_cons, List.map_nil, List.count_append, List.count_cons, List.count_nil]
      at hbefore htaken ⊢
    omega

theorem turn (htally : t.Tally d) (id : Nat) :
    (t.perform (.turn id)).1.Tally (d.add (t.perform (.turn id)).2) := by
  have hspec := t.turn_spec id
  simp only [SleepingTimers.perform]
  generalize t.turn id = out at hspec ⊢
  cases hspec with
  | rests => exact d.add_empty.symm ▸ htally
  | ends task hmem hown _ hended =>
    have hgone : id ∉ t.live := by
      rcases hended with haborted | hgone
      · rw [← hown, ← htally.running task hmem]
        simpa using haborted
      · exact hgone
    have hrest : ∀ k, k ∈ t.live ↔ k ≠ id ∧ k ∈ t.live := fun k =>
      (and_iff_right_of_imp fun hlive => ne_of_mem_of_not_mem hlive hgone).symm
    exact d.add_empty.symm ▸ htally.finish hrest rfl htally.balanced
  | fires task hmem hown _ hdue hlive =>
    subst hown
    exact htally.fire hlive
  | dozes task hmem => exact d.add_empty.symm ▸ htally.doze hmem

theorem perform (htally : t.Tally d) (move : Move α) :
    (t.perform move).1.Tally (d.add (t.perform move).2) := by
  cases move with
  | schedule due payload => exact htally.schedule due payload
  | cancel id =>
    simp only [SleepingTimers.perform, SleepingTimers.cancel]
    split
    · next hlive =>
      refine htally.stop (List.perm_cons_erase hlive).symm fun hshut => ?_
      show t.live.erase id = []
      rw [htally.closed hshut]
      rfl
    · exact d.add_empty.symm ▸ htally
  | setClock i => exact d.add_empty.symm ▸ { htally with }
  | pass millis => exact d.add_empty.symm ▸ { htally with }
  | turn id => exact htally.turn id
  | close =>
    have hall : t.live ++ [] ~ t.live := .of_eq (List.append_nil _)
    exact htally.stop hall fun _ => rfl

theorem run (htally : t.Tally d) (moves : List (Move α)) :
    (t.run moves).1.Tally (d.add (t.run moves).2) := by
  induction moves generalizing t d with
  | nil => exact d.add_empty.symm ▸ htally
  | cons move moves ih =>
    have hrest := ih (htally.perform move)
    rwa [Diary.add_assoc] at hrest

/-- A timer fires in a turn of its own task that finds the deadline come and the number listed. -/
theorem of_fires (htally : t.Tally d) {move : Move α} {timer : Timer α}
    (hfires : timer ∈ (t.perform move).2.fired) :
    move = .turn timer.id ∧ timer ∈ d.armed ∧ timer.due ≤ t.clock ∧ timer.id ∈ t.live := by
  cases move with
  | turn id =>
    have hspec := t.turn_spec id
    simp only [SleepingTimers.perform] at hfires
    generalize t.turn id = out at hspec hfires
    cases hspec with
    | fires task hmem hown _ hdue hlive =>
      cases List.mem_singleton.1 hfires
      subst hown
      exact ⟨rfl, htally.armed task hmem, hdue, hlive⟩
    | rests | ends | dozes => cases hfires
  | schedule | cancel | setClock | pass | close => cases hfires

/-- What has come to an end does not fire, whatever is done later. -/
theorem never_fires (htally : t.Tally d) {id : Nat} (hended : id ∈ d.ended)
    (moves : List (Move α)) : id ∉ (t.run moves).2.fired.map Timer.id := by
  induction moves generalizing t d with
  | nil => exact List.not_mem_nil
  | cons move moves ih =>
    intro hfired
    simp only [SleepingTimers.run, Diary.add, List.map_append, List.mem_append] at hfired
    rcases hfired with hnow | hlater
    · obtain ⟨timer, hfires, rfl⟩ := List.mem_map.1 hnow
      exact htally.not_live hended (htally.of_fires hfires).2.2.2
    · exact ih (htally.perform move) (Diary.mem_ended_add hended) hlater

theorem ended_cancel (htally : t.Tally d) {id : Nat} (hknown : id ∈ d.armed.map Timer.id) :
    id ∈ (d.add (t.perform (.cancel id)).2).ended := by
  have hplace := (htally.balanced.mem_iff (a := id)).2 hknown
  by_cases hlive : id ∈ t.live
  · simp [SleepingTimers.perform, Diary.ended, Diary.add, hlive]
  · exact Diary.mem_ended_add ((List.mem_append.1 hplace).resolve_left hlive)

theorem fired_nodup (htally : t.Tally d) : (d.fired.map Timer.id).Nodup :=
  (List.nodup_append.1 (List.nodup_append.1 htally.nodup).2.1).1

theorem length_armed (htally : t.Tally d) :
    t.live.length + d.fired.length + d.cancelled.length = d.armed.length := by
  have hbalance := htally.balanced.length_eq
  simp only [Diary.ended, List.length_append, List.length_map] at hbalance
  omega

end Tally

/-- Once the timers are closed, none fires. -/
theorem Tally.silent {t : SleepingTimers α} {d : Diary α} (htally : t.Tally d)
    (hclosed : t.isOpen = false) (moves : List (Move α)) : (t.run moves).2.fired = [] := by
  induction moves generalizing t d with
  | nil => rfl
  | cons move moves ih =>
    have hnow : (t.perform move).2.fired = [] := by
      refine List.eq_nil_iff_forall_not_mem.2 fun timer hfires => ?_
      have hlive := (htally.of_fires hfires).2.2.2
      rw [htally.closed hclosed] at hlive
      cases hlive
    have hstays : (t.perform move).1.isOpen = false := by
      rw [Bool.eq_false_iff] at hclosed ⊢
      exact fun hopen => hclosed ((t.perform_frame move).2.1 hopen)
    show (t.perform move).2.fired ++ ((t.perform move).1.run moves).2.fired = []
    rw [hnow, ih (htally.perform move) hstays, List.nil_append]

theorem tally_run (clock : Instant) (slice : Nat) (moves : List (Move α)) :
    ((new clock slice).run moves).1.Tally ((new clock slice).run moves).2 := by
  have htally := (Tally.new (α := α) clock slice).run moves
  rwa [Diary.empty_add] at htally

/-- After any moves: numbers are given out in increasing order, no timer has fired twice, and those
that were armed are live, fired or cancelled. A timer fires only in a turn of its own task while the
clock shows its deadline or a later instant. Cancelling what has fired, was cancelled or is unknown
changes nothing, a timer that has been cancelled does not fire any more, and after the timers are
closed none does. -/
theorem safe_in_any_order (clock : Instant) (slice : Nat) (moves : List (Move α)) :
    let t := ((new clock slice).run moves).1
    let d := ((new clock slice).run moves).2
    (d.armed.map Timer.id).Pairwise (· < ·) ∧
      (d.fired.map Timer.id).Nodup ∧
      t.live.length + d.fired.length + d.cancelled.length = d.armed.length ∧
      (t.isOpen → t.liveCount? = some (d.armed.length - d.fired.length - d.cancelled.length)) ∧
      (∀ move, ∀ timer ∈ (t.perform move).2.fired,
        move = .turn timer.id ∧ timer ∈ d.armed ∧ timer.due ≤ t.clock) ∧
      (∀ id, id ∈ d.fired.map Timer.id ∨ id ∈ d.cancelled ∨ id ∉ d.armed.map Timer.id →
        t.cancel id = t) ∧
      (∀ id ∈ d.armed.map Timer.id, ∀ later,
        id ∉ ((t.cancel id).run later).2.fired.map Timer.id) ∧
      ∀ later, (t.close.run later).2.fired = [] := by
  intro t d
  have htally : t.Tally d := tally_run clock slice moves
  refine ⟨?_, htally.fired_nodup, htally.length_armed, fun hopen => ?_, fun move timer hfires => ?_,
    fun id hended => if_neg ?_, fun id hknown later => ?_, fun later => ?_⟩
  · rw [htally.numbered]
    exact List.pairwise_lt_range'
  · have hbalance := htally.length_armed
    rw [liveCount?, if_pos hopen]
    congr 1
    omega
  · obtain ⟨hturn, harmed, hdue, -⟩ := htally.of_fires hfires
    exact ⟨hturn, harmed, hdue⟩
  · rcases hended with hfired | hcancelled | hunknown
    · exact htally.not_live (List.mem_append_left _ hfired)
    · exact htally.not_live (List.mem_append_right _ hcancelled)
    · exact fun hlive => hunknown (htally.balanced.subset (List.mem_append_left _ hlive))
  · exact (htally.perform (.cancel id)).never_fires (htally.ended_cancel hknown) later
  · exact (htally.perform .close).silent rfl later

/-- The timer is cancelled after its deadline has come and before its task gets the turn. -/
theorem safe_in_any_order_last_moment :
    let t : SleepingTimers Unit :=
      ((new ⟨0, .utc⟩ 5).run [.schedule ⟨10, .utc⟩ (), .turn 1, .setClock ⟨20, .utc⟩, .pass 5]).1
    (t.run [.turn 1]).2.fired.map Timer.id = [1] ∧
      1 ∉ ((t.cancel 1).run [.turn 1]).2.fired.map Timer.id := by
  intro t
  obtain ⟨-, -, -, -, -, -, hcancelled, -⟩ := safe_in_any_order (α := Unit) ⟨0, .utc⟩ 5
    [.schedule ⟨10, .utc⟩ (), .turn 1, .setClock ⟨20, .utc⟩, .pass 5]
  exact ⟨by decide, hcancelled 1 (by decide) [.turn 1]⟩

end SleepingTimers

end Muezzin
