import Mathlib.Data.List.Nodup
import Muezzin.Timer.Timeline

/-!
# A clock that only goes on

However many timers fire while a timeline is advanced, they were pending before, each is due when
the clock stops, and the clock has not gone back.
-/

namespace Muezzin

namespace Instant

theorem le_refl (a : Instant) : a ≤ a :=
  Int.le_refl a.millis

theorem le_trans {a b c : Instant} (hfirst : a ≤ b) (hsecond : b ≤ c) : a ≤ c :=
  Int.le_trans hfirst hsecond

theorem le_later_left (a b : Instant) : a ≤ a.later b := by
  unfold later
  split
  · next hless => exact Int.le_of_lt hless
  · exact le_refl a

theorem le_later_right (a b : Instant) : b ≤ a.later b := by
  unfold later
  split
  · exact le_refl b
  · next hnotLess => exact Int.not_lt.1 hnotLess

theorem later_le {a b bound : Instant} (hfirst : a ≤ bound) (hsecond : b ≤ bound) :
    a.later b ≤ bound := by
  unfold later
  split
  · exact hsecond
  · exact hfirst

theorem eq_of_le {a b : Instant} (hfirst : a ≤ b) (hsecond : b ≤ a) (hzone : a.zone = b.zone) :
    a = b := by
  have hmillis : a.millis = b.millis := Int.le_antisymm hfirst hsecond
  cases a
  cases b
  simp_all

theorem later_of_le {a b : Instant} (honward : a ≤ b) (hzone : a.zone = b.zone) :
    a.later b = b := by
  unfold later
  split
  · rfl
  · next hnotLess => exact eq_of_le honward (Int.not_lt.1 hnotLess) hzone

theorem later_later (a b : Instant) : (a.later b).later b = a.later b := by
  unfold later
  split
  · exact if_neg (Int.lt_irrefl _)
  · rfl

theorem zone_later {a b : Instant} (hsame : b.zone = a.zone) : (a.later b).zone = a.zone := by
  unfold later
  split
  · exact hsame
  · rfl

end Instant

namespace Timeline

variable {α : Type}

/-- What is known of an advance, whatever fires on the way. -/
theorem advanceTo_spec (t : Timeline α) (target : Instant) :
    t.clock ≤ (t.advanceTo target).2.clock ∧
      ∀ timer ∈ (t.advanceTo target).1,
        timer ∈ t.pending ∧ timer.due ≤ (t.advanceTo target).2.clock := by
  fun_induction Timeline.advanceTo t target with
  | case1 t hidle => exact ⟨Instant.le_later_left _ _, by simp⟩
  | case2 t timer u hpopped hshorter fired v hadvanced ih =>
    obtain ⟨hwaited, -, rfl⟩ := mem_of_popDue? hpopped
    rw [hadvanced] at ih
    obtain ⟨honward, hothers⟩ := ih
    refine ⟨Instant.le_trans (Instant.le_later_left _ _) honward, fun other hother => ?_⟩
    rcases List.mem_cons.1 hother with rfl | hother
    · exact ⟨hwaited, Instant.le_trans (Instant.le_later_right _ _) honward⟩
    · obtain ⟨hpending, hdue⟩ := hothers other hother
      exact ⟨(List.mem_filter.1 hpending).1, hdue⟩

theorem zone_advanceTo {t : Timeline α} {target : Instant}
    (hpending : ∀ timer ∈ t.pending, timer.due.zone = t.clock.zone)
    (hreached : target.zone = t.clock.zone) :
    (t.advanceTo target).2.clock.zone = t.clock.zone := by
  fun_induction Timeline.advanceTo t target with
  | case1 t hidle => exact Instant.zone_later hreached
  | case2 t timer u hpopped hshorter fired v hadvanced ih =>
    obtain ⟨hwaited, -, rfl⟩ := mem_of_popDue? hpopped
    have hzone : (t.clock.later timer.due).zone = t.clock.zone :=
      Instant.zone_later (hpending timer hwaited)
    rw [hadvanced] at ih
    refine (ih ?_ ?_).trans hzone
    · intro other h
      exact (hpending other (List.mem_filter.1 h).1).trans hzone.symm
    · exact hreached.trans hzone.symm

theorem earliest?_eq_none {ts : List (Timer α)} : earliest? ts = none ↔ ts = [] := by
  cases ts with
  | nil => exact iff_of_true rfl rfl
  | cons first rest =>
    refine iff_of_false (fun h => ?_) (List.cons_ne_nil first rest)
    rw [earliest?] at h
    split at h
    · cases h
    · split at h <;> cases h

theorem earliest?_le {ts : List (Timer α)} {timer : Timer α} (h : earliest? ts = some timer) :
    ∀ other ∈ ts, timer.due ≤ other.due := by
  induction ts generalizing timer with
  | nil => cases h
  | cons first rest ih =>
    intro other hother
    rw [earliest?] at h
    split at h
    · next halone =>
      cases h
      rw [earliest?_eq_none.1 halone] at hother
      rw [List.mem_singleton.1 hother]
      exact Instant.le_refl _
    · next best hbest =>
      have hothers := ih hbest
      split at h
      · next hless =>
        cases h
        rcases List.mem_cons.1 hother with rfl | hother
        · exact Int.le_of_lt hless
        · exact hothers other hother
      · next hnotLess =>
        cases h
        rcases List.mem_cons.1 hother with rfl | hother
        · exact Instant.le_refl _
        · exact Instant.le_trans (Int.not_lt.1 hnotLess) (hothers other hother)

theorem earliest?_filter (ts : List (Timer α)) (target : Instant) :
    earliest? (ts.filter (·.due ≤ target)) = (earliest? ts).filter (·.due ≤ target) := by
  induction ts with
  | nil => rfl
  | cons timer rest ih =>
    rw [List.filter_cons, earliest?]
    cases hfound : earliest? rest with
    | none =>
      rw [earliest?_eq_none.1 hfound]
      by_cases hdue : timer.due ≤ target <;> simp [hdue, earliest?, Option.filter]
    | some best =>
      rw [hfound] at ih
      by_cases hdue : timer.due ≤ target <;> by_cases hbestDue : best.due ≤ target
      · by_cases hless : best.due < timer.due <;>
          simp [hdue, hbestDue, hless, earliest?, ih, Option.filter]
      · have hnotLess : ¬ best.due < timer.due := fun hless =>
          hbestDue (Instant.le_trans (Int.le_of_lt hless) hdue)
        simp [hdue, hbestDue, earliest?, ih, hnotLess, Option.filter]
      · have hless : best.due < timer.due := Int.lt_of_le_of_lt hbestDue (Int.not_le.1 hdue)
        simp [hdue, hbestDue, ih, hless, Option.filter]
      · by_cases hless : best.due < timer.due <;> simp [hdue, hbestDue, hless, ih, Option.filter]

theorem popDue?_eq_some_iff {t u : Timeline α} {target : Instant} {timer : Timer α} :
    t.popDue? target = some (timer, u) ↔
      earliest? t.pending = some timer ∧ timer.due ≤ target ∧ u = t.cancel timer.id := by
  rw [popDue?, earliest?_filter]
  cases hfound : earliest? t.pending with
  | none => simp [Option.filter]
  | some least =>
    by_cases hdue : least.due ≤ target
    · simp only [Option.filter, hdue, decide_true, if_true, Option.some.injEq, Prod.mk.injEq]
      constructor
      · rintro ⟨rfl, rfl⟩
        exact ⟨rfl, hdue, rfl⟩
      · rintro ⟨rfl, -, rfl⟩
        exact ⟨rfl, rfl⟩
    · simp only [Option.filter, hdue, decide_false, Bool.false_eq_true, if_false, reduceCtorEq,
        false_iff, Option.some.injEq]
      rintro ⟨rfl, hsoon, -⟩
      exact hdue hsoon

theorem le_of_popDue? {t u : Timeline α} {target : Instant} {timer : Timer α}
    (hpopped : t.popDue? target = some (timer, u)) : ∀ other ∈ t.pending, timer.due ≤ other.due :=
  earliest?_le (popDue?_eq_some_iff.1 hpopped).1

theorem not_due_of_popDue? {t : Timeline α} {target : Instant} (hidle : t.popDue? target = none) :
    ∀ timer ∈ t.pending, ¬ timer.due ≤ target := by
  have hnone : t.pending.filter (·.due ≤ target) = [] := by
    unfold popDue? at hidle
    split at hidle
    · next hnothing => exact earliest?_eq_none.1 hnothing
    · cases hidle
  intro timer hwaits
  have hnotDue := List.filter_eq_nil_iff.1 hnone timer hwaits
  rwa [decide_eq_true_eq] at hnotDue

/-- What every timer that fires keeps, and the last move of the clock too, an advance keeps. -/
theorem advanceTo_induction {target : Instant} {motive : List (Timer α) → Timeline α → Prop}
    (hfire : ∀ fired t timer u, motive fired t → t.popDue? target = some (timer, u) →
      motive (fired ++ [timer]) (u.moveClock timer.due))
    (hstop : ∀ fired t, motive fired t → t.popDue? target = none →
      motive fired (t.moveClock target))
    {t : Timeline α} (hstart : motive [] t) :
    motive (t.advanceTo target).1 (t.advanceTo target).2 := by
  have hgeneral : ∀ fired, motive fired t →
      motive (fired ++ (t.advanceTo target).1) (t.advanceTo target).2 := by
    clear hstart
    fun_induction Timeline.advanceTo t target with
    | case1 t hidle =>
      intro fired hstart
      rw [List.append_nil]
      exact hstop fired t hstart hidle
    | case2 t timer u hpopped hshorter later v hadvanced ih =>
      intro fired hstart
      rw [hadvanced] at ih
      have hrest := ih (fired ++ [timer]) (hfire fired t timer u hstart hpopped)
      rwa [List.append_assoc, List.singleton_append] at hrest
  exact hgeneral [] hstart

/-- An advance arms nothing. -/
theorem pending_advanceTo (t : Timeline α) (target : Instant) :
    (t.advanceTo target).2.issued = t.issued ∧
      ∀ timer ∈ (t.advanceTo target).2.pending, timer ∈ t.pending := by
  refine advanceTo_induction (motive := fun _ u => u.issued = t.issued ∧ u.pending ⊆ t.pending)
    ?_ (fun _ _ hkept _ => hkept) ⟨rfl, fun _ => id⟩
  rintro fired u timer v ⟨hissued, hkept⟩ hpopped
  obtain ⟨-, -, rfl⟩ := mem_of_popDue? hpopped
  exact ⟨hissued, fun other hwaits => hkept (List.mem_filter.1 hwaits).1⟩

theorem earliest?_cons_of_same {first : Timer α} {rest : List (Timer α)}
    (hsame : ∀ other ∈ rest, other.due = first.due) : earliest? (first :: rest) = some first := by
  rw [earliest?]
  split
  · rfl
  · next best hbest =>
    rw [hsame best (mem_of_earliest? hbest)]
    exact if_neg (Int.lt_irrefl _)

theorem advanceTo_of_none {t : Timeline α} {target : Instant} (hidle : t.popDue? target = none) :
    t.advanceTo target = ([], t.moveClock target) := by
  rw [advanceTo]
  split
  · rfl
  · next hpopped =>
    rw [hidle] at hpopped
    cases hpopped

theorem advanceTo_of_some {t u : Timeline α} {target : Instant} {timer : Timer α}
    (hpopped : t.popDue? target = some (timer, u)) :
    t.advanceTo target =
      (timer :: ((u.moveClock timer.due).advanceTo target).1,
        ((u.moveClock timer.due).advanceTo target).2) := by
  rw [advanceTo]
  split
  · next hidle =>
    rw [hpopped] at hidle
    cases hidle
  · next hpopped' =>
    rw [hpopped] at hpopped'
    cases hpopped'
    rfl

theorem length_advanceTo_le (t : Timeline α) (target : Instant) :
    (t.advanceTo target).1.length + (t.advanceTo target).2.pending.length ≤ t.pending.length := by
  refine advanceTo_induction
    (motive := fun fired u => fired.length + u.pending.length ≤ t.pending.length)
    (fun fired u timer v hbound hpopped => ?_) (fun _ _ hbound _ => hbound)
    (Nat.le_of_eq (Nat.zero_add _))
  have hshorter := length_popDue?_lt hpopped
  show (fired ++ [timer]).length + v.pending.length ≤ _
  rw [List.length_append, List.length_singleton]
  omega

/-- Nothing is left that is due, and the clock has reached the target. -/
theorem advanceTo_reaches (t : Timeline α) (target : Instant) :
    target ≤ (t.advanceTo target).2.clock ∧
      ∀ timer ∈ (t.advanceTo target).2.pending, ¬ timer.due ≤ target := by
  fun_induction Timeline.advanceTo t target with
  | case1 t hidle => exact ⟨Instant.le_later_right _ _, not_due_of_popDue? (t := t) hidle⟩
  | case2 t timer u hpopped hshorter fired v hadvanced ih =>
    rw [hadvanced] at ih
    exact ih

/-- The clock does not go beyond what the clock and the target are within. -/
theorem clock_advanceTo_le {t : Timeline α} {target bound : Instant} (hbegun : t.clock ≤ bound)
    (hwithin : target ≤ bound) : (t.advanceTo target).2.clock ≤ bound := by
  refine advanceTo_induction (motive := fun _ u => u.clock ≤ bound)
    (fun fired u timer v hbegun hpopped => ?_)
    (fun _ u hbegun _ => Instant.later_le hbegun hwithin) hbegun
  obtain ⟨-, hdue, rfl⟩ := mem_of_popDue? hpopped
  exact Instant.later_le hbegun (Instant.le_trans hdue hwithin)

theorem advanceTo_ne_nil {t : Timeline α} {due : Instant} (hnext : t.nextDue? = some due) :
    (t.advanceTo due).1 ≠ [] := by
  obtain ⟨timer, hleast, rfl⟩ := Option.map_eq_some_iff.1 hnext
  rw [advanceTo_of_some (popDue?_eq_some_iff.2 ⟨hleast, Instant.le_refl _, rfl⟩)]
  exact List.cons_ne_nil _ _

/-- An advance to the next deadline fires the timers that have it, in the order of arming. -/
theorem advanceTo_of_least {t : Timeline α} {target : Instant}
    (hids : (t.pending.map Timer.id).Nodup)
    (hleast : ∀ timer ∈ t.pending, timer.due ≤ target → timer.due = target) :
    t.advanceTo target =
      (t.pending.filter (·.due ≤ target),
        { t with
          clock := t.clock.later target
          pending := t.pending.filter fun timer => ¬ timer.due ≤ target }) := by
  induction hwaiting : t.pending.filter (·.due ≤ target) generalizing t with
  | nil =>
    have hidle : t.popDue? target = none := by
      rw [popDue?, hwaiting]
      rfl
    have hall : t.pending.filter (fun timer => ¬ timer.due ≤ target) = t.pending := by
      rw [List.filter_eq_self]
      intro timer h
      simpa using List.filter_eq_nil_iff.1 hwaiting timer h
    rw [advanceTo_of_none hidle, hall]
    rfl
  | cons timer rest ih =>
    have honTime : ∀ other ∈ timer :: rest, other.due = target := by
      intro other h
      rw [← hwaiting, List.mem_filter, decide_eq_true_eq] at h
      exact hleast other h.1 h.2
    have hfirst : timer.due = target := honTime timer List.mem_cons_self
    have hpopped : t.popDue? target = some (timer, t.cancel timer.id) := by
      rw [popDue?, hwaiting, earliest?_cons_of_same fun other h =>
        (honTime other (List.mem_cons_of_mem _ h)).trans hfirst.symm]
    have hwaited : timer ∈ t.pending :=
      (List.mem_filter.1 (hwaiting ▸ List.mem_cons_self : timer ∈ t.pending.filter _)).1
    let u := (t.cancel timer.id).moveClock timer.due
    have hothers : u.pending.filter (·.due ≤ target) = rest := by
      have hdistinct : ((timer :: rest).map Timer.id).Nodup := by
        rw [← hwaiting]
        exact hids.sublist (List.filter_sublist.map _)
      have hswap : u.pending.filter (·.due ≤ target) =
          (t.pending.filter (·.due ≤ target)).filter (·.id != timer.id) := by
        show (t.pending.filter (·.id != timer.id)).filter _ = _
        simp only [List.filter_filter, Bool.and_comm]
      rw [hswap, hwaiting, List.filter_cons_of_neg (by simp), List.filter_eq_self]
      intro other h
      exact bne_iff_ne.2 fun hsame => (List.nodup_cons.1 hdistinct).1
        (hsame ▸ List.mem_map_of_mem h)
    have hlater : u.pending.filter (fun timer => ¬ timer.due ≤ target) =
        t.pending.filter fun timer => ¬ timer.due ≤ target := by
      show (t.pending.filter (·.id != timer.id)).filter _ = _
      rw [List.filter_filter]
      apply List.filter_congr
      intro other h
      by_cases hsame : other.id = timer.id
      · have htimer : other = timer := List.inj_on_of_nodup_map hids h hwaited hsame
        simp [htimer, hfirst, Instant.le_refl]
      · simp [hsame]
    rw [advanceTo_of_some hpopped, ih (hids.sublist (List.filter_sublist.map _))
      (fun other h => hleast other (List.mem_filter.1 h).1) hothers, hlater]
    show (_, { t with
      clock := (t.clock.later timer.due).later target, pending := _ }) = _
    rw [hfirst, Instant.later_later]

end Timeline

end Muezzin
