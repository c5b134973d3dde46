import Muezzin.Registry
import Mathlib.Data.List.Nodup

/-!
# What the operations of the registry do

Each operation is described once and as a whole: which registrations are live afterwards, which
timers wait, and what is handed out. Claims and cancellations only filter; a registration under a
key that is free only appends. What is proved elsewhere about the registry uses these descriptions
and does not look into the operations again.
-/

namespace Muezzin

namespace Registration

def alarm (g : Registration) : Timer Fire :=
  ⟨g.timer, g.due, g.fire⟩

theorem perm_sort (gs : List Registration) : (sort gs).Perm gs :=
  List.mergeSort_perm gs _

theorem mem_sort {g : Registration} {gs : List Registration} : g ∈ sort gs ↔ g ∈ gs :=
  (perm_sort gs).mem_iff

end Registration

namespace Registry

theorem mem_listing {r : Registry} {g : Registration} : g ∈ r.listing ↔ g ∈ r.live :=
  Registration.mem_sort

theorem perm_listing (r : Registry) : r.listing.Perm r.live :=
  Registration.perm_sort r.live

theorem find?_eq_some {r : Registry} (hdistinct : (r.live.map Registration.key).Nodup)
    {g : Registration} (h : g ∈ r.live) : r.find? g.key = some g := by
  cases hfound : r.find? g.key with
  | none =>
    have := List.find?_eq_none.1 hfound g h
    simp at this
  | some other =>
    have hsameKey : other.key = g.key := by simpa using List.find?_some hfound
    have := List.inj_on_of_nodup_map hdistinct (List.mem_of_find?_eq_some hfound) h hsameKey
    rw [this]

theorem mem_remove {r : Registry} {g gone : Registration} :
    g ∈ (r.remove gone).live ↔ g ∈ r.live ∧ g ≠ gone := by
  simp [remove]

theorem perm_remove {r : Registry} (hdistinct : r.live.Nodup) {gone : Registration}
    (h : gone ∈ r.live) : r.live.Perm (gone :: (r.remove gone).live) := by
  show r.live.Perm (gone :: r.live.filter (· != gone))
  rw [← hdistinct.erase_eq_filter]
  exact List.perm_cons_erase h

theorem dropAll_eq (r : Registry) (gone : List Registration) :
    r.dropAll gone =
      { r with
        live := r.live.filter (· ∉ gone)
        timers :=
          { r.timers with
            pending := r.timers.pending.filter (·.id ∉ gone.map Registration.timer) } } := by
  induction gone generalizing r with
  | nil => simp [dropAll]
  | cons g gone ih =>
    have hfirst : r.dropAll (g :: gone) = (r.drop g).dropAll gone := rfl
    rw [hfirst, ih]
    simp only [drop, remove, Timeline.cancel, List.filter_filter, List.map_cons, List.mem_cons,
      not_or, Bool.decide_and, decide_not, bne, beq_eq_decide]
    congr 2
    · apply List.filter_congr
      intro t _
      exact Bool.and_comm _ _
    · funext x
      exact Bool.and_comm _ _

theorem mem_live_dropAll {r : Registry} {gone : List Registration} {g : Registration} :
    g ∈ (r.dropAll gone).live ↔ g ∈ r.live ∧ g ∉ gone := by
  rw [dropAll_eq]
  simp

theorem mem_pending_dropAll {r : Registry} {gone : List Registration} {t : Timer Fire} :
    t ∈ (r.dropAll gone).timers.pending ↔
      t ∈ r.timers.pending ∧ ∀ g ∈ gone, g.timer ≠ t.id := by
  rw [dropAll_eq]
  simp

theorem live_cancelAll (r : Registry) : r.cancelAll.2.live = [] := by
  apply List.eq_nil_iff_forall_not_mem.2
  intro g hg
  obtain ⟨hlive, hkept⟩ := mem_live_dropAll.1 hg
  exact hkept (mem_listing.2 hlive)

theorem mem_pending_cancelAll {r : Registry} {t : Timer Fire} :
    t ∈ r.cancelAll.2.timers.pending ↔ t ∈ r.timers.pending ∧ ∀ g ∈ r.live, g.timer ≠ t.id := by
  simp only [cancelAll, mem_pending_dropAll, mem_listing]

theorem mem_takeDue {r : Registry} {now : Instant} {g : Registration} :
    g ∈ (r.takeDue now).1 ↔ g ∈ r.live ∧ g.due ≤ now := by
  simp [takeDue, Registration.mem_sort]

theorem mem_live_takeDue {r : Registry} {now : Instant} {g : Registration} :
    g ∈ (r.takeDue now).2.live ↔ g ∈ r.live ∧ ¬ g.due ≤ now := by
  simp only [takeDue, mem_live_dropAll, Registration.mem_sort, List.mem_filter, decide_eq_true_eq]
  constructor
  · rintro ⟨hlive, hkept⟩
    exact ⟨hlive, fun hdue => hkept ⟨hlive, hdue⟩⟩
  · rintro ⟨hlive, hlater⟩
    exact ⟨hlive, fun hdue => hlater hdue.2⟩

theorem mem_pending_takeDue {r : Registry} {now : Instant} {t : Timer Fire} :
    t ∈ (r.takeDue now).2.timers.pending ↔
      t ∈ r.timers.pending ∧ ∀ g ∈ r.live, g.due ≤ now → g.timer ≠ t.id := by
  simp only [takeDue, mem_pending_dropAll, Registration.mem_sort, List.mem_filter,
    decide_eq_true_eq, and_imp]

theorem live_takeDue (r : Registry) (now : Instant) :
    (r.takeDue now).2.live = r.live.filter (fun g => !decide (g.due ≤ now)) := by
  show (r.dropAll _).live = _
  rw [dropAll_eq]
  apply List.filter_congr
  intro g hg
  simp [Registration.mem_sort, hg]

theorem perm_takeDue (r : Registry) (now : Instant) :
    ((r.takeDue now).1 ++ (r.takeDue now).2.live).Perm r.live := by
  rw [live_takeDue]
  exact ((Registration.perm_sort _).append_right _).trans (List.filter_append_perm _ _)

/-- A report claims a live registration with its key and its number, or nothing. -/
theorem takeFired_cases (r : Registry) (fire : Fire) :
    (∃ g ∈ r.live, g.fire = fire ∧ r.takeFired fire = (some g, r.remove g)) ∨
      ((∀ g ∈ r.live, g.fire ≠ fire) ∧ r.takeFired fire = (none, r)) := by
  unfold takeFired
  split
  · next g hfound =>
    have hsame : g.fire = fire := by simpa using List.find?_some hfound
    exact .inl ⟨g, List.mem_of_find?_eq_some hfound, hsame, rfl⟩
  · next hmissing =>
    refine .inr ⟨fun g hg => ?_, rfl⟩
    simpa using List.find?_eq_none.1 hmissing g hg

def upcoming (r : Registry) (event : Event) (due : Instant) : Registration :=
  ⟨r.issued + 1, r.timers.issued + 1, event, due⟩

def enrol (r : Registry) (g : Registration) : Registry where
  timers :=
    { r.timers with
      pending := r.timers.pending ++ [g.alarm]
      issued := r.timers.issued + 1 }
  live := r.live ++ [g]
  issued := r.issued + 1

theorem register_of_free {r : Registry} {event : Event} (due : Instant)
    (hfree : ∀ g ∈ r.live, g.key ≠ event.key) :
    r.register event due = (r.upcoming event due, r.enrol (r.upcoming event due)) := by
  have hmissing : r.find? event.key = none := by
    apply List.find?_eq_none.2
    intro g hg
    simpa using hfree g hg
  simp [register, cancel, hmissing, Timeline.schedule, upcoming, enrol, Registration.alarm,
    Registration.fire, Registration.key]

end Registry

end Muezzin
