import Mathlib
import Muezzin.Proofs.Advance
import Muezzin.Timer.Script

/-!
# An advance through scripts

While a timeline is advanced, the scripts of the timers that fire may arm further timers, due in the
past even, and cancel others. An advance is told by its firings: each begins where the one before
has left the timeline, takes out the earliest of what waits then, and runs its script. Scripts that
only arm and cancel leave the clock alone, so it reads the latest deadline so far.
-/

namespace Muezzin

/-- The step arms or cancels, and whatever it arms does the same. -/
inductive Step.Calm : Step → Prop
  | schedule (name : String) (due : Deadline) {next : List Step} (hrest : ∀ s ∈ next, s.Calm) :
      Calm (.schedule name due next)
  | cancel (id : Nat) : Calm (.cancel id)

/-- Calm steps one after another. -/
theorem Step.calm_induction {motive : (steps : List Step) → (∀ s ∈ steps, s.Calm) → Prop}
    (nil : motive [] (List.forall_mem_nil _))
    (schedule : ∀ (name : String) (due : Deadline) {next steps : List Step}
      (hrest : ∀ s ∈ next, s.Calm) (hcalm : ∀ s ∈ steps, s.Calm), motive steps hcalm →
        motive (.schedule name due next :: steps)
          (List.forall_mem_cons.2 ⟨.schedule name due hrest, hcalm⟩))
    (cancel : ∀ (id : Nat) {steps : List Step} (hcalm : ∀ s ∈ steps, s.Calm), motive steps hcalm →
      motive (.cancel id :: steps) (List.forall_mem_cons.2 ⟨.cancel id, hcalm⟩))
    (steps : List Step) (hcalm : ∀ s ∈ steps, s.Calm) : motive steps hcalm := by
  induction steps with
  | nil => exact nil
  | cons s steps ih =>
    obtain ⟨hfirst, hlater⟩ := List.forall_mem_cons.1 hcalm
    cases hfirst with
    | schedule name due hrest => exact schedule name due hrest hlater (ih hlater)
    | cancel id => exact cancel id hlater (ih hlater)

/-- By deadline, and by number where the deadlines denote the same time. -/
def Timer.Precedes {α : Type} (a b : Timer α) : Prop :=
  a.due < b.due ∨ a.due.millis = b.due.millis ∧ a.id ≤ b.id

namespace Timeline

def follow (t : Timeline Scripted) (steps : List Step) : Timeline Scripted :=
  steps.foldl (fun t s => (t.perform s).2.2) t

/-- Numbers are given out in the order of arming and never again. -/
structure Numbered {α : Type} (t : Timeline α) : Prop where
  ordered : (t.pending.map Timer.id).Pairwise (· < ·)
  issued : ∀ timer ∈ t.pending, timer.id ≤ t.issued

def Calm (t : Timeline Scripted) : Prop :=
  ∀ timer ∈ t.pending, ∀ s ∈ timer.payload.steps, s.Calm

end Timeline

structure Firing where
  before : Timeline Scripted
  timer : Timer Scripted

namespace Firing

def begun (f : Firing) : Timeline Scripted :=
  (f.before.cancel f.timer.id).moveClock f.timer.due

def after (f : Firing) : Timeline Scripted :=
  f.begun.follow f.timer.payload.steps

def reading (f : Firing) : Reading :=
  ⟨f.timer.payload.name, f.begun.clock⟩

def Calm (f : Firing) : Prop :=
  ∀ s ∈ f.timer.payload.steps, s.Calm

/-- The timer is the one that an advance to `target` takes out. -/
def IsNext (f : Firing) (target : Instant) : Prop :=
  f.before.popDue? target = some (f.timer, f.before.cancel f.timer.id)

end Firing

namespace Timeline

/-- One firing begins where the one before has left the timeline. -/
def Linked : Timeline Scripted → List Firing → Timeline Scripted → Prop
  | t, [], u => t = u
  | t, f :: firings, u => f.before = t ∧ Linked f.after firings u

/-- `i` is the latest of the clock's reading and the deadlines of what has fired. -/
structure Latest (t : Timeline Scripted) (firings : List Firing) (i : Instant) : Prop where
  either : i = t.clock ∨ ∃ f ∈ firings, i = f.timer.due
  clock_le : t.clock ≤ i
  due_le : ∀ f ∈ firings, f.timer.due ≤ i

/-- What is true of an advance from `t` to `target` that ends with `u`. -/
structure Unfolds (t : Timeline Scripted) (target : Instant) (firings : List Firing)
    (u : Timeline Scripted) : Prop where
  linked : ∃ last, t.Linked firings last ∧ u = last.moveClock target
  /-- What fires has the least deadline, and of equal ones the least number. -/
  least : ∀ f ∈ firings, f.timer ∈ f.before.pending ∧ f.timer.due ≤ target ∧
    ∀ other ∈ f.before.pending, other.due ≤ target → f.timer.Precedes other
  latest : ∀ earlier f later, firings = earlier ++ f :: later →
    t.Latest (earlier ++ [f]) f.reading.clock
  onward : (firings.map Firing.reading).Pairwise fun r s => r.clock ≤ s.clock
  /-- What a script cancels after it was armed neither fires any more nor waits. -/
  cancelled : ∀ earlier f later, firings = earlier ++ f :: later →
    ∀ steps id rest, f.timer.payload.steps = steps ++ .cancel id :: rest →
      id ≤ (f.begun.follow steps).issued →
        (∀ g ∈ later, g.timer.id ≠ id) ∧ ∀ timer ∈ u.pending, timer.id ≠ id
  /-- What is due later and not cancelled waits as before, whenever it was armed. -/
  kept : ∀ earlier later mid, firings = earlier ++ later → t.Linked earlier mid →
    ∀ timer ∈ mid.pending, ¬ timer.due ≤ target →
      (∀ f ∈ later, .cancel timer.id ∉ f.timer.payload.steps) → timer ∈ u.pending
  done : ∀ timer ∈ u.pending, ¬ timer.due ≤ target
  clock : u.clock.millis = max t.clock.millis target.millis
  /-- A firing uses up a part of what the scripts can do. -/
  bounded : 2 * firings.length ≤ scriptWeight t.pending

/-- What arming, cancelling and setting the clock keep. -/
structure Kept (P : Timeline Scripted → Prop) : Prop where
  schedule {t : Timeline Scripted} (hstart : P t) (due : Instant) (payload : Scripted) :
    P (t.schedule due payload).2
  cancel {t : Timeline Scripted} (hstart : P t) (id : Nat) : P (t.cancel id)
  setClock {t : Timeline Scripted} (hstart : P t) (i : Instant) : P (t.setClock i)

namespace Kept

variable {P : Timeline Scripted → Prop} (hkept : Kept P) {t u : Timeline Scripted}
include hkept

theorem runFrames (hstart : P t) (frames : List Frame) : P (t.runFrames frames).2.2 := by
  fun_induction Timeline.runFrames t frames with
  | case1 t => exact hstart
  | case2 t frames ih => exact ih hstart
  | case3 t name due next rest frames ih => exact ih (hkept.schedule hstart _ _)
  | case4 t id rest frames ih => exact ih (hkept.cancel hstart _)
  | case5 t target rest frames ih => exact ih hstart
  | case6 t millis rest frames ih => exact ih hstart
  | case7 t rest frames ih => exact ih hstart
  | case8 t i rest frames ih => exact ih (hkept.setClock hstart _)
  | case9 t target count frames timer rest hpopped hshorter u readings total v hran ih =>
    obtain ⟨-, -, rfl⟩ := mem_of_popDue? hpopped
    rw [hran] at ih
    exact ih (hkept.setClock (hkept.cancel hstart _) _)
  | case10 t target count frames hidle hlast => exact hkept.setClock hstart _
  | case11 t target count frames hidle hmore ih => exact ih (hkept.setClock hstart _)

theorem perform (hstart : P t) (s : Step) : P (t.perform s).2.2 := by
  cases s with
  | schedule name due next => exact hkept.schedule hstart _ _
  | cancel id => exact hkept.cancel hstart id
  | setClock i => exact hkept.setClock hstart i
  | advanceTo target => exact hkept.runFrames hstart _
  | advance millis => exact hkept.runFrames hstart _
  | fireDue => exact hkept.runFrames hstart _

theorem follow (hstart : P t) (steps : List Step) : P (t.follow steps) := by
  induction steps generalizing t with
  | nil => exact hstart
  | cons s steps ih => exact ih (hkept.perform hstart s)

theorem begun {f : Firing} (hstart : P f.before) : P f.begun :=
  hkept.setClock (hkept.cancel hstart _) _

theorem linked {firings : List Firing} (hstart : P t) (hlinked : t.Linked firings u) :
    (∀ f ∈ firings, P f.before) ∧ P u := by
  induction firings generalizing t with
  | nil => exact ⟨List.forall_mem_nil _, hlinked ▸ hstart⟩
  | cons f firings ih =>
    obtain ⟨rfl, hrest⟩ := hlinked
    have hlater := ih (hkept.follow (hkept.begun hstart) f.timer.payload.steps) hrest
    exact ⟨List.forall_mem_cons.2 ⟨hstart, hlater.1⟩, hlater.2⟩

end Kept

namespace Numbered

variable {α : Type} {t : Timeline α}

theorem new (clock : Instant) : Numbered (α := α) { clock } where
  ordered := List.Pairwise.nil
  issued := List.forall_mem_nil _

theorem schedule (hnumbered : t.Numbered) (due : Instant) (payload : α) :
    (t.schedule due payload).2.Numbered where
  ordered := by
    show ((t.pending ++ [_]).map Timer.id).Pairwise (· < ·)
    rw [List.map_append, List.map_singleton, List.pairwise_append]
    refine ⟨hnumbered.ordered, List.pairwise_singleton _ _, fun id hold new hisNew => ?_⟩
    obtain ⟨timer, hwaits, rfl⟩ := List.mem_map.1 hold
    rw [List.mem_singleton.1 hisNew]
    exact Nat.lt_succ_of_le (hnumbered.issued timer hwaits)
  issued := by
    intro timer hwaits
    rcases List.mem_append.1 hwaits with hold | hnew
    · exact Nat.le_succ_of_le (hnumbered.issued timer hold)
    · rw [List.mem_singleton.1 hnew]
      exact Nat.le_refl _

theorem cancel (hnumbered : t.Numbered) (id : Nat) : (t.cancel id).Numbered where
  ordered := hnumbered.ordered.sublist (List.filter_sublist.map _)
  issued timer hwaits := hnumbered.issued timer (List.mem_of_mem_filter hwaits)

theorem setClock (hnumbered : t.Numbered) (i : Instant) : (t.setClock i).Numbered :=
  ⟨hnumbered.ordered, hnumbered.issued⟩

theorem nodup (hnumbered : t.Numbered) : (t.pending.map Timer.id).Nodup :=
  hnumbered.ordered.imp Nat.ne_of_lt

theorem kept : Kept Numbered :=
  ⟨Numbered.schedule, Numbered.cancel, Numbered.setClock⟩

end Numbered

theorem numbered_follow (clock : Instant) (steps : List Step) :
    (follow { clock } steps).Numbered :=
  Numbered.kept.follow (.new clock) steps

/-- The number was given out, and no timer with it waits. -/
def Gone (t : Timeline Scripted) (id : Nat) : Prop :=
  id ≤ t.issued ∧ ∀ timer ∈ t.pending, timer.id ≠ id

theorem gone_cancel {t : Timeline Scripted} {id : Nat} (hissued : id ≤ t.issued) :
    (t.cancel id).Gone id :=
  ⟨hissued, fun _ hwaits => bne_iff_ne.1 (List.mem_filter.1 hwaits).2⟩

/-- Numbers are not given out again, so what is gone stays away. -/
theorem kept_gone (id : Nat) : Kept (·.Gone id) where
  schedule {t} hgone due payload := by
    refine ⟨Nat.le_succ_of_le hgone.1, fun timer hwaits => ?_⟩
    rcases List.mem_append.1 hwaits with hold | hnew
    · exact hgone.2 timer hold
    · rw [List.mem_singleton.1 hnew]
      exact Nat.ne_of_gt (Nat.lt_succ_of_le hgone.1)
  cancel hgone _ := ⟨hgone.1, fun timer hwaits => hgone.2 timer (List.mem_of_mem_filter hwaits)⟩
  setClock hgone _ := hgone

section Linked

variable {t u : Timeline Scripted} {target : Instant} {firings : List Firing}

theorem linked_append {earlier later : List Firing} :
    t.Linked (earlier ++ later) u ↔ ∃ mid, t.Linked earlier mid ∧ mid.Linked later u := by
  induction earlier generalizing t with
  | nil => exact ⟨fun h => ⟨t, rfl, h⟩, fun ⟨_, h, hrest⟩ => h ▸ hrest⟩
  | cons f earlier ih =>
    constructor
    · rintro ⟨rfl, hrest⟩
      obtain ⟨mid, hfirst, hsecond⟩ := ih.1 hrest
      exact ⟨mid, ⟨rfl, hfirst⟩, hsecond⟩
    · rintro ⟨mid, ⟨rfl, hfirst⟩, hsecond⟩
      exact ⟨rfl, ih.2 ⟨mid, hfirst, hsecond⟩⟩

theorem linked_unique {v : Timeline Scripted} (hfirst : t.Linked firings u)
    (hsecond : t.Linked firings v) : u = v := by
  induction firings generalizing t with
  | nil => exact hfirst.symm.trans hsecond
  | cons f firings ih => exact ih hfirst.2 hsecond.2

end Linked

/-! ### Calm scripts -/

section Calm

variable {t : Timeline Scripted} {steps : List Step}

theorem clock_follow (hcalm : ∀ s ∈ steps, s.Calm) (t : Timeline Scripted) :
    (t.follow steps).clock = t.clock := by
  induction steps, hcalm using Step.calm_induction generalizing t with
  | nil => rfl
  | schedule name due _ _ ih => exact ih _
  | cancel id _ ih => exact ih _

theorem Calm.follow (hwaiting : t.Calm) (hcalm : ∀ s ∈ steps, s.Calm) : (t.follow steps).Calm := by
  induction steps, hcalm using Step.calm_induction generalizing t with
  | nil => exact hwaiting
  | schedule name due hrest _ ih =>
    refine ih fun timer hwaits => ?_
    rcases List.mem_append.1 hwaits with hold | hnew
    · exact hwaiting timer hold
    · rw [List.mem_singleton.1 hnew]
      exact hrest
  | cancel id _ ih => exact ih fun timer hwaits => hwaiting timer (List.mem_of_mem_filter hwaits)

theorem scriptWeight_follow_le (hcalm : ∀ s ∈ steps, s.Calm) (t : Timeline Scripted) :
    scriptWeight (t.follow steps).pending ≤ scriptWeight t.pending + Step.weights steps := by
  induction steps, hcalm using Step.calm_induction generalizing t with
  | nil => exact Nat.le_refl _
  | @schedule name due next _ _ _ ih =>
    have hmore : scriptWeight (t.perform (.schedule name due next)).2.2.pending =
        scriptWeight t.pending + (2 + Step.weights next) :=
      scriptWeight_append t.pending [_]
    refine Nat.le_trans (ih _) ?_
    rw [hmore, Step.weights, Step.weight]
    omega
  | cancel id _ ih =>
    have hless : scriptWeight (t.perform (.cancel id)).2.2.pending ≤ scriptWeight t.pending :=
      scriptWeight_filter_le _ _
    refine Nat.le_trans (ih (t.perform (.cancel id)).2.2) ?_
    rw [Step.weights, Step.weight]
    omega

theorem runFrames_steps (hcalm : ∀ s ∈ steps, s.Calm) (t : Timeline Scripted)
    (frames : List Frame) :
    t.runFrames (.steps steps :: frames) = (t.follow steps).runFrames frames := by
  induction steps, hcalm using Step.calm_induction generalizing t with
  | nil =>
    rw [runFrames]
    rfl
  | schedule name due _ _ ih =>
    rw [runFrames, ih]
    rfl
  | cancel id _ ih =>
    rw [runFrames, ih]
    rfl

theorem runFrames_of_none {target : Instant} (hidle : t.popDue? target = none) (count : Nat) :
    t.runFrames [.advance target count] = ([], count, t.moveClock target) := by
  rw [runFrames]
  split
  · next hpopped =>
    rw [hidle] at hpopped
    cases hpopped
  · rfl

theorem runFrames_of_some {u : Timeline Scripted} {target : Instant} {timer : Timer Scripted}
    (hpopped : t.popDue? target = some (timer, u)) (count : Nat) (frames : List Frame) :
    t.runFrames (.advance target count :: frames) =
      let run := (u.moveClock timer.due).runFrames
        (.steps timer.payload.steps :: .advance target (count + 1) :: frames)
      (⟨timer.payload.name, (u.moveClock timer.due).clock⟩ :: run.1, run.2) := by
  rw [runFrames]
  split
  · next hpopped' =>
    rw [hpopped] at hpopped'
    cases hpopped'
    rfl
  · next hidle =>
    rw [hpopped] at hidle
    cases hidle

theorem runFrames_of_isNext {f : Firing} {target : Instant} (hnext : f.IsNext target)
    (hcalm : f.Calm) (count : Nat) :
    f.before.runFrames [.advance target count] =
      (f.reading :: (f.after.runFrames [.advance target (count + 1)]).1,
        (f.after.runFrames [.advance target (count + 1)]).2) := by
  rw [runFrames_of_some hnext, runFrames_steps hcalm]
  rfl

theorem Calm.begun {f : Firing} (hwaiting : f.before.Calm) : f.begun.Calm :=
  fun timer hwaits => hwaiting timer (List.mem_of_mem_filter hwaits)

/-- A firing takes its timer's own share of the weight, beyond what its script can arm. -/
theorem scriptWeight_after {f : Firing} (hwaits : f.timer ∈ f.before.pending) (hcalm : f.Calm) :
    scriptWeight f.after.pending + 2 ≤ scriptWeight f.before.pending := by
  have harmed := scriptWeight_follow_le hcalm f.begun
  have htaken : scriptWeight f.begun.pending + (2 + Step.weights f.timer.payload.steps) ≤
      scriptWeight f.before.pending := scriptWeight_cancel hwaits
  show scriptWeight (f.begun.follow f.timer.payload.steps).pending + 2 ≤ _
  omega

/-- An advance comes to an end, and it is the chain of its firings. -/
theorem exists_firings (hwaiting : t.Calm) (target : Instant) (count : Nat) :
    ∃ firings last, t.Linked firings last ∧ (∀ f ∈ firings, f.IsNext target) ∧
      (∀ f ∈ firings, f.Calm) ∧ last.popDue? target = none ∧
      2 * firings.length ≤ scriptWeight t.pending ∧
      t.runFrames [.advance target count] =
        (firings.map Firing.reading, count + firings.length, last.moveClock target) := by
  induction weight : scriptWeight t.pending using Nat.strongRecOn generalizing t count with
  | ind n ih =>
    cases hpopped : t.popDue? target with
    | none => exact ⟨[], t, rfl, List.forall_mem_nil _, List.forall_mem_nil _, hpopped,
        Nat.zero_le _, runFrames_of_none hpopped count⟩
    | some taken =>
      obtain ⟨timer, rest⟩ := taken
      obtain ⟨hwaits, -, rfl⟩ := mem_of_popDue? hpopped
      let f : Firing := ⟨t, timer⟩
      have hisNext : f.IsNext target := hpopped
      have hcalm : f.Calm := hwaiting timer hwaits
      have hlighter : scriptWeight f.after.pending + 2 ≤ scriptWeight t.pending :=
        scriptWeight_after hwaits hcalm
      have hcalmAfter : f.after.Calm := (Calm.begun (f := f) hwaiting).follow hcalm
      obtain ⟨firings, last, hlinked, hnext, hallCalm, hidle, hbounded, hrun⟩ :=
        ih _ (by omega) hcalmAfter (count + 1) rfl
      refine ⟨f :: firings, last, ⟨rfl, hlinked⟩, List.forall_mem_cons.2 ⟨hisNext, hnext⟩,
        List.forall_mem_cons.2 ⟨hcalm, hallCalm⟩, hidle, ?_, ?_⟩
      · rw [List.length_cons]
        omega
      · rw [show t = f.before from rfl, runFrames_of_isNext hisNext hcalm, hrun, List.map_cons,
          List.length_cons, Nat.add_assoc, Nat.add_comm 1]

end Calm

/-! ### What the chain of firings says -/

theorem millis_later (a b : Instant) : (a.later b).millis = max a.millis b.millis := by
  unfold Instant.later
  split
  · next hless => exact (Int.max_eq_right (Int.le_of_lt hless)).symm
  · next hnotLess => exact (Int.max_eq_left (Int.not_lt.1 hnotLess)).symm

theorem earliest?_precedes {ts : List (Timer Scripted)} {timer : Timer Scripted}
    (hordered : (ts.map Timer.id).Pairwise (· < ·)) (h : earliest? ts = some timer) :
    ∀ other ∈ ts, timer.Precedes other := by
  induction ts generalizing timer with
  | nil => exact List.forall_mem_nil _
  | cons first rest ih =>
    rw [List.map_cons, List.pairwise_cons] at hordered
    rw [earliest?] at h
    refine List.forall_mem_cons.2 ?_
    split at h
    · next halone =>
      cases h
      rw [earliest?_eq_none.1 halone]
      exact ⟨.inr ⟨rfl, Nat.le_refl _⟩, List.forall_mem_nil _⟩
    · next best hleast =>
      split at h
      · next hless =>
        cases h
        exact ⟨.inl hless, ih hordered.2 hleast⟩
      · next hnotLess =>
        cases h
        refine ⟨.inr ⟨rfl, Nat.le_refl _⟩, fun other hwaits => ?_⟩
        have honward : first.due.millis ≤ other.due.millis :=
          Instant.le_trans (Int.not_lt.1 hnotLess) (earliest?_le hleast other hwaits)
        rcases Int.lt_or_eq_of_le honward with hless | hsame
        · exact .inl hless
        · exact .inr ⟨hsame, Nat.le_of_lt (hordered.1 _ (List.mem_map_of_mem hwaits))⟩

section Chain

variable {t u : Timeline Scripted} {target : Instant} {firings : List Firing}

theorem precedes_of_isNext {f : Firing} (hnext : f.IsNext target)
    (hnumbered : f.before.Numbered) :
    ∀ other ∈ f.before.pending, other.due ≤ target → f.timer.Precedes other := by
  intro other hwaits hdue
  have hpopped : f.before.popDue? target = some (f.timer, _) := hnext
  unfold popDue? at hpopped
  split at hpopped
  · cases hpopped
  · next hleast =>
    cases hpopped
    exact earliest?_precedes (hnumbered.ordered.sublist (List.filter_sublist.map _)) hleast other
      (List.mem_filter.2 ⟨hwaits, decide_eq_true hdue⟩)

/-- From its cancellation on a timer is gone. -/
theorem gone_after {f : Firing} {steps rest : List Step} {id : Nat}
    (hscript : f.timer.payload.steps = steps ++ .cancel id :: rest)
    (hissued : id ≤ (f.begun.follow steps).issued) : f.after.Gone id := by
  have hsplit : f.after = ((f.begun.follow steps).cancel id).follow rest := by
    show f.begun.follow f.timer.payload.steps = _
    rw [hscript, follow, List.foldl_append]
    rfl
  rw [hsplit]
  exact (kept_gone id).follow (gone_cancel hissued) rest

theorem clock_after {f : Firing} (hcalm : f.Calm) :
    f.after.clock = f.before.clock.later f.timer.due :=
  clock_follow hcalm f.begun

theorem latest_linked (hcalm : ∀ f ∈ firings, f.Calm) (hlinked : t.Linked firings u) :
    t.Latest firings u.clock := by
  induction firings generalizing t with
  | nil =>
    cases hlinked
    exact ⟨.inl rfl, Instant.le_refl _, List.forall_mem_nil _⟩
  | cons f firings ih =>
    obtain ⟨rfl, hrest⟩ := hlinked
    obtain ⟨hcalmFirst, hcalmRest⟩ := List.forall_mem_cons.1 hcalm
    have hlater := ih hcalmRest hrest
    have hstart := clock_after hcalmFirst
    have honward : f.before.clock.later f.timer.due ≤ u.clock := hstart ▸ hlater.clock_le
    refine ⟨?_, Instant.le_trans (Instant.le_later_left _ _) honward, List.forall_mem_cons.2
      ⟨Instant.le_trans (Instant.le_later_right _ _) honward, hlater.due_le⟩⟩
    rcases hlater.either with hsame | ⟨g, hfires, hsame⟩
    · rw [hstart] at hsame
      unfold Instant.later at hsame
      split at hsame
      · exact .inr ⟨f, List.mem_cons_self, hsame⟩
      · exact .inl hsame
    · exact .inr ⟨g, List.mem_cons_of_mem _ hfires, hsame⟩

theorem latest_reading {earlier later : List Firing} {f : Firing}
    (hcalm : ∀ g ∈ earlier ++ f :: later, g.Calm) (hlinked : t.Linked (earlier ++ f :: later) u) :
    t.Latest (earlier ++ [f]) f.reading.clock := by
  obtain ⟨mid, hfirst, rfl, -⟩ := linked_append.1 hlinked
  have hupTo : t.Linked (earlier ++ [f]) f.after := linked_append.2 ⟨_, hfirst, rfl, rfl⟩
  have hcalmUpTo : ∀ g ∈ earlier ++ [f], g.Calm := by
    intro g hfires
    refine hcalm g (List.mem_append.2 ((List.mem_append.1 hfires).imp_right fun hlast => ?_))
    exact List.mem_singleton.1 hlast ▸ List.mem_cons_self
  have hreads : f.reading.clock = f.after.clock := (clock_after (hcalmUpTo f (by simp))).symm
  exact hreads ▸ latest_linked hcalmUpTo hupTo

theorem reading_onward (hcalm : ∀ f ∈ firings, f.Calm) (hlinked : t.Linked firings u) :
    (firings.map Firing.reading).Pairwise fun r s => r.clock ≤ s.clock := by
  induction firings generalizing t with
  | nil => exact List.Pairwise.nil
  | cons f firings ih =>
    obtain ⟨rfl, hrest⟩ := hlinked
    obtain ⟨hcalmFirst, hcalmRest⟩ := List.forall_mem_cons.1 hcalm
    refine List.pairwise_cons.2 ⟨fun r hreads => ?_, ih hcalmRest hrest⟩
    obtain ⟨g, hfires, rfl⟩ := List.mem_map.1 hreads
    obtain ⟨earlier, later, rfl⟩ := List.append_of_mem hfires
    show f.begun.clock ≤ _
    rw [show f.begun.clock = f.after.clock from (clock_after hcalmFirst).symm]
    exact (latest_reading hcalmRest hrest).clock_le

theorem mem_follow {timer : Timer Scripted} {steps : List Step} (hwaits : timer ∈ t.pending)
    (hcalm : ∀ s ∈ steps, s.Calm) (hspared : .cancel timer.id ∉ steps) :
    timer ∈ (t.follow steps).pending := by
  induction steps, hcalm using Step.calm_induction generalizing t with
  | nil => exact hwaits
  | schedule name due _ _ ih =>
    exact ih (List.mem_append_left _ hwaits) fun h => hspared (List.mem_cons_of_mem _ h)
  | cancel id _ ih =>
    refine ih (List.mem_filter.2 ⟨hwaits, bne_iff_ne.2 fun hsame => ?_⟩)
      fun h => hspared (List.mem_cons_of_mem _ h)
    exact hspared (hsame ▸ List.mem_cons_self)

/-- What is due after the target waits on, unless a script cancels it. -/
theorem mem_linked {timer : Timer Scripted} (hnumbered : t.Numbered)
    (hlinked : t.Linked firings u) (hnext : ∀ f ∈ firings, f.IsNext target)
    (hcalm : ∀ f ∈ firings, f.Calm) (hwaits : timer ∈ t.pending) (hnotDue : ¬ timer.due ≤ target)
    (hspared : ∀ f ∈ firings, .cancel timer.id ∉ f.timer.payload.steps) :
    timer ∈ u.pending := by
  induction firings generalizing t with
  | nil => exact hlinked ▸ hwaits
  | cons f firings ih =>
    obtain ⟨rfl, hrest⟩ := hlinked
    obtain ⟨hisNext, hnextRest⟩ := List.forall_mem_cons.1 hnext
    obtain ⟨hcalmFirst, hcalmRest⟩ := List.forall_mem_cons.1 hcalm
    obtain ⟨hsparedFirst, hsparedRest⟩ := List.forall_mem_cons.1 hspared
    obtain ⟨hwaited, hdue, -⟩ := mem_of_popDue? hisNext
    have hother : timer.id ≠ f.timer.id := fun hsame =>
      hnotDue (List.inj_on_of_nodup_map hnumbered.nodup hwaits hwaited hsame ▸ hdue)
    have hwaitsBegun : timer ∈ f.begun.pending :=
      List.mem_filter.2 ⟨hwaits, bne_iff_ne.2 hother⟩
    have hone : f.before.Linked [f] f.after := ⟨rfl, rfl⟩
    have hnumberedAfter : f.after.Numbered := (Numbered.kept.linked hnumbered hone).2
    exact ih hnumberedAfter hrest hnextRest hcalmRest
      (mem_follow hwaitsBegun hcalmFirst hsparedFirst) hsparedRest

theorem unfolds_of_linked (hnumbered : t.Numbered) (hlinked : t.Linked firings u)
    (hnext : ∀ f ∈ firings, f.IsNext target) (hcalm : ∀ f ∈ firings, f.Calm)
    (hidle : u.popDue? target = none) (hbounded : 2 * firings.length ≤ scriptWeight t.pending) :
    t.Unfolds target firings (u.moveClock target) where
  linked := ⟨u, hlinked, rfl⟩
  least f hfires := by
    obtain ⟨hwaits, hdue, -⟩ := mem_of_popDue? (hnext f hfires)
    exact ⟨hwaits, hdue,
      precedes_of_isNext (hnext f hfires) ((Numbered.kept.linked hnumbered hlinked).1 f hfires)⟩
  latest := by
    rintro earlier f later rfl
    exact latest_reading hcalm hlinked
  onward := reading_onward hcalm hlinked
  cancelled := by
    rintro earlier f later rfl steps id rest hscript hissued
    obtain ⟨_, -, rfl, hlinkedLater⟩ := linked_append.1 hlinked
    obtain ⟨hbefore, hafter⟩ := (kept_gone id).linked (gone_after hscript hissued) hlinkedLater
    refine ⟨fun g hfires => ?_, hafter.2⟩
    obtain ⟨hwaits, -, -⟩ :=
      mem_of_popDue? (hnext g (List.mem_append_right _ (List.mem_cons_of_mem _ hfires)))
    exact (hbefore g hfires).2 g.timer hwaits
  kept := by
    rintro earlier later mid rfl hlinkedEarlier timer hwaits hnotDue hspared
    obtain ⟨_, hlinkedMid, hlinkedLater⟩ := linked_append.1 hlinked
    cases linked_unique hlinkedEarlier hlinkedMid
    have hfires := fun f (h : f ∈ later) => List.mem_append_right earlier h
    exact mem_linked (u := u) (Numbered.kept.linked hnumbered hlinkedMid).2 hlinkedLater
      (fun f h => hnext f (hfires f h)) (fun f h => hcalm f (hfires f h)) hwaits hnotDue hspared
  done := not_due_of_popDue? (t := u) hidle
  clock := by
    have hlatest := latest_linked hcalm hlinked
    have honward : t.clock.millis ≤ u.clock.millis := hlatest.clock_le
    show (u.clock.later target).millis = _
    rw [millis_later]
    rcases hlatest.either with hsame | ⟨f, hfires, hsame⟩
    · rw [hsame]
    · have hdue : f.timer.due.millis ≤ target.millis := (mem_of_popDue? (hnext f hfires)).2.1
      rw [hsame] at honward ⊢
      omega
  bounded := hbounded

end Chain

/-- An advance over scripts that arm and cancel comes to an end. It fires what is due in the order
of the deadlines, at a clock that reads the latest so far, and leaves alone what is due later. -/
theorem runTo_unfolds {t : Timeline Scripted} (hnumbered : t.Numbered) (hcalm : t.Calm)
    (target : Instant) :
    ∃ firings, t.Unfolds target firings (t.runTo target).2.2 ∧
      (t.runTo target).1 = firings.map Firing.reading ∧
      (t.runTo target).2.1 = firings.length := by
  obtain ⟨firings, last, hlinked, hnext, hallCalm, hidle, hbounded, hrun⟩ :=
    exists_firings hcalm target 0
  have hresult : t.runTo target =
      (firings.map Firing.reading, firings.length, last.moveClock target) := by
    rw [runTo, hrun, Nat.zero_add]
  rw [hresult]
  exact ⟨firings, unfolds_of_linked hnumbered hlinked hnext hallCalm hidle hbounded, rfl, rfl⟩

/-- The first script arms a timer that is overdue already and cancels the one after it. -/
theorem runTo_unfolds_overdue :
    let steps : List Step :=
      [.schedule "first" (.fixed ⟨1000, .utc⟩)
        [.schedule "overdue" (.fixed ⟨500, .utc⟩) [], .cancel 2],
        .schedule "second" (.fixed ⟨2000, .utc⟩) [], .schedule "last" (.fixed ⟨9000, .utc⟩) []]
    let t := follow { clock := ⟨0, .utc⟩ } steps
    let advanced := t.runTo ⟨3000, .utc⟩
    (t.Numbered ∧ t.Calm) ∧
      (∃ firings, t.Unfolds ⟨3000, .utc⟩ firings advanced.2.2 ∧
        advanced.1 = firings.map Firing.reading ∧ advanced.2.1 = firings.length) ∧
      advanced.1 = [⟨"first", ⟨1000, .utc⟩⟩, ⟨"overdue", ⟨1000, .utc⟩⟩] ∧
      advanced.2.2.clock = ⟨3000, .utc⟩ := by
  intro steps t advanced
  have hcalmSteps : ∀ s ∈ steps, s.Calm := by
    simp only [steps, List.forall_mem_cons]
    refine ⟨.schedule _ _ ?_, .schedule _ _ (List.forall_mem_nil _),
      .schedule _ _ (List.forall_mem_nil _), List.forall_mem_nil _⟩
    simp only [List.forall_mem_cons]
    exact ⟨.schedule _ _ (List.forall_mem_nil _), .cancel 2, List.forall_mem_nil _⟩
  have hnumbered : t.Numbered := numbered_follow _ steps
  have hcalm : t.Calm := Calm.follow (List.forall_mem_nil _) hcalmSteps
  refine ⟨⟨hnumbered, hcalm⟩, runTo_unfolds hnumbered hcalm _, ?_, ?_⟩
  · simp only [advanced, t, steps]
    cbv
  · simp only [advanced, t, steps]
    cbv

end Timeline

end Muezzin
