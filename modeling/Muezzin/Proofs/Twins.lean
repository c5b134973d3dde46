import Muezzin.Proofs.Backlog
import Muezzin.Proofs.Days

/-!
# Engines that differ in their numbers

Registrations and timers have numbers, which tell how many were made before them. Nothing follows
from these numbers but which report belongs to which registration. So two engines in which the same
waits, in the same order, stay alike under every operation and hand off the same files at the same
time, however many registrations the one has seen that the other has not.
-/

namespace Muezzin

def Registration.entry (g : Registration) : Event × Instant := (g.event, g.due)

def Timer.slot (t : Timer Fire) : String × Instant := (t.payload.key, t.due)

namespace Registry

/-- A report without its number, and whether it matches a live registration. -/
def sketch (r : Registry) (report : Fire) : String × Bool :=
  (report.key, r.live.any (·.fire == report))

/-- Two registries, with the reports that wait, in which only the numbers differ. -/
structure Alike (r : Registry) (reports : List Fire) (s : Registry) (others : List Fire) :
    Prop where
  books : r.Consistent reports
  otherBooks : s.Consistent others
  clock : s.timers.clock = r.timers.clock
  entries : s.live.map Registration.entry = r.live.map Registration.entry
  slots : s.timers.pending.map Timer.slot = r.timers.pending.map Timer.slot
  sketches : others.map s.sketch = reports.map r.sketch

theorem Consistent.eq_of_key_eq {r : Registry} {reports : List Fire}
    (hbooks : r.Consistent reports) {g h : Registration} (hg : g ∈ r.live) (hh : h ∈ r.live)
    (hsame : g.key = h.key) : g = h :=
  List.inj_on_of_nodup_map hbooks.keys_nodup hg hh hsame

theorem Consistent.id_eq_iff {r : Registry} {reports : List Fire} (hbooks : r.Consistent reports)
    {t u : Timer Fire} (ht : t ∈ r.timers.pending) (hu : u ∈ r.timers.pending) :
    t.id = u.id ↔ t.payload.key = u.payload.key := by
  obtain ⟨g, hg, rfl⟩ := hbooks.owned t ht
  obtain ⟨h, hh, rfl⟩ := hbooks.owned u hu
  constructor
  · intro hsame
    rw [hbooks.eq_of_timer_eq hg hh hsame]
  · intro hsame
    rw [hbooks.eq_of_key_eq hg hh hsame]

theorem entries_remove {r : Registry} {reports : List Fire} (hbooks : r.Consistent reports)
    {g : Registration} (hg : g ∈ r.live) :
    (r.remove g).live.map Registration.entry =
      (r.live.map Registration.entry).filter (·.1.key != g.key) := by
  rw [List.filter_map]
  refine congrArg _ (List.filter_congr fun h hh => ?_)
  rw [Bool.eq_iff_iff, bne_iff_ne]
  exact ⟨fun hother => bne_iff_ne.2 fun hsame => hother (hbooks.eq_of_key_eq hh hg hsame),
    fun hother hsame => bne_iff_ne.1 hother (congrArg Registration.key hsame)⟩

theorem sketch_fire {r : Registry} {g : Registration} (hlive : g ∈ r.live) :
    r.sketch g.fire = (g.key, true) := by
  have hfound : r.live.any (·.fire == g.fire) = true :=
    List.any_eq_true.2 ⟨g, hlive, beq_self_eq_true _⟩
  exact congrArg (Prod.mk g.key) hfound

theorem sketch_of_stale {r : Registry} {report : Fire} (hstale : ∀ g ∈ r.live, g.fire ≠ report) :
    r.sketch report = (report.key, false) := by
  have hnone : r.live.any (·.fire == report) = false :=
    List.any_eq_false.2 fun g hlive => by rw [beq_iff_eq]; exact hstale g hlive
  exact congrArg (Prod.mk report.key) hnone

/-- Whoever a waiting timer belongs to is live, so its report will match. -/
theorem sketch_payload {r : Registry} {l : List Fire} (hbooks : r.Consistent l) {t : Timer Fire}
    (hwaits : t ∈ r.timers.pending) : r.sketch t.payload = (t.payload.key, true) := by
  obtain ⟨g, hg, rfl⟩ := hbooks.owned t hwaits
  exact sketch_fire hg

theorem slots_cancel {r : Registry} {l : List Fire} (hbooks : r.Consistent l) {t : Timer Fire}
    (hwaits : t ∈ r.timers.pending) : (r.timers.cancel t.id).pending.map Timer.slot =
      (r.timers.pending.map Timer.slot).filter (·.1 != t.payload.key) := by
  rw [List.filter_map]
  refine congrArg _ (List.filter_congr fun v hv => ?_)
  rw [Bool.eq_iff_iff, bne_iff_ne]
  exact (not_congr (hbooks.id_eq_iff hv hwaits)).trans bne_iff_ne.symm

theorem map_sketch_remove {r : Registry} {g : Registration} {l : List Fire}
    (hbooks : r.Consistent (g.fire :: l)) : l.map (r.remove g).sketch = l.map r.sketch := by
  refine List.map_congr_left fun report hwaits => congrArg _ (Bool.eq_iff_iff.2 ?_)
  have hother : report ≠ g.fire := fun hsame =>
    (List.nodup_cons.1 hbooks.reports_nodup).1 (hsame ▸ hwaits)
  simp only [List.any_eq_true, mem_remove, beq_iff_eq]
  constructor
  · rintro ⟨h, ⟨hh, -⟩, hsame⟩
    exact ⟨h, hh, hsame⟩
  · rintro ⟨h, hh, rfl⟩
    exact ⟨h, ⟨hh, fun hsame => hother (congrArg _ hsame)⟩, rfl⟩

namespace Alike

variable {r s : Registry} {l m : List Fire}

theorem exists_entry (halike : r.Alike l s m) {g : Registration} (hg : g ∈ r.live) :
    ∃ h ∈ s.live, h.entry = g.entry := by
  have hlisted := List.mem_map_of_mem (f := Registration.entry) hg
  rw [← halike.entries] at hlisted
  exact List.mem_map.1 hlisted

/-- The first reports claim the same, or both match nothing. -/
theorem takeFired {x y : Fire} (halike : r.Alike (x :: l) s (y :: m)) :
    (∃ g h, g ∈ r.live ∧ h.entry = g.entry ∧ r.takeFired x = (some g, r.remove g) ∧
      s.takeFired y = (some h, s.remove h) ∧ (r.remove g).Alike l (s.remove h) m) ∨
    r.takeFired x = (none, r) ∧ s.takeFired y = (none, s) ∧ r.Alike l s m := by
  obtain ⟨hfirst, hrest⟩ := List.cons.inj halike.sketches
  rcases r.takeFired_cases x with ⟨g, hg, rfl, htaken⟩ | ⟨hstale, htaken⟩
  · rcases s.takeFired_cases y with ⟨h, hh, rfl, htaken'⟩ | ⟨hstale', -⟩
    · have hsameKey : h.key = g.key := congrArg Prod.fst hfirst
      obtain ⟨h', hh', hsame⟩ := halike.exists_entry hg
      have hkey : h'.key = h.key := (congrArg (·.1.key) hsame).trans hsameKey.symm
      obtain rfl : h' = h := halike.otherBooks.eq_of_key_eq hh' hh hkey
      refine .inl ⟨g, h', hg, hsame, htaken, htaken', ?_⟩
      exact
        { books := halike.books.claim hg
          otherBooks := halike.otherBooks.claim hh
          clock := halike.clock
          entries := by
            rw [entries_remove halike.books hg, entries_remove halike.otherBooks hh, halike.entries,
              hsameKey]
          slots := halike.slots
          sketches := by
            rw [map_sketch_remove halike.books, map_sketch_remove halike.otherBooks]
            exact hrest }
    · rw [sketch_fire hg, sketch_of_stale hstale'] at hfirst
      cases (Prod.mk.inj hfirst).2
  · rcases s.takeFired_cases y with ⟨h, hh, rfl, -⟩ | ⟨hstale', htaken'⟩
    · rw [sketch_fire hh, sketch_of_stale hstale] at hfirst
      cases (Prod.mk.inj hfirst).2
    · exact .inr ⟨htaken, htaken', halike.books.dropReport hstale,
        halike.otherBooks.dropReport hstale', halike.clock, halike.entries, halike.slots, hrest⟩

theorem length_eq (halike : r.Alike l s m) : m.length = l.length := by
  have hsame := congrArg List.length halike.sketches
  rwa [List.length_map, List.length_map] at hsame

theorem claimFires (halike : r.Alike l s m) :
    (Engine.claimFires m s).1.map Registration.entry =
        (Engine.claimFires l r).1.map Registration.entry ∧
      (Engine.claimFires l r).2.Alike [] (Engine.claimFires m s).2 [] := by
  induction l generalizing r s m with
  | nil =>
    obtain rfl := List.length_eq_zero_iff.1 halike.length_eq
    exact ⟨rfl, halike⟩
  | cons x l ih =>
    cases m with
    | nil => cases halike.length_eq
    | cons y m =>
      rw [Engine.claimFires, Engine.claimFires]
      rcases halike.takeFired with ⟨g, h, -, hsame, htaken, htaken', hrest⟩ |
        ⟨htaken, htaken', hrest⟩
      · obtain ⟨hclaims, hleft⟩ := ih hrest
        rw [htaken, htaken']
        exact ⟨congrArg₂ List.cons hsame hclaims, hleft⟩
      · rw [htaken, htaken']
        exact ih hrest

end Alike

end Registry

namespace Registration

theorem map_entry_sort {gs hs : List Registration} (hsame : hs.map entry = gs.map entry) :
    (sort hs).map entry = (sort gs).map entry := by
  have honEntries (gs : List Registration) : (sort gs).map entry =
      (gs.map entry).mergeSort fun a b : Event × Instant =>
        a.2 < b.2 || (a.2.millis == b.2.millis && a.1.key ≤ b.1.key) :=
    List.map_mergeSort fun _ _ _ _ => rfl
  rw [honEntries, honEntries, hsame]

theorem map_entry_sortByTime (zone : Zone) {gs hs : List Registration}
    (hsame : hs.map entry = gs.map entry) :
    (Engine.sortByTime zone hs).map entry = (Engine.sortByTime zone gs).map entry := by
  have honEntries (gs : List Registration) : (Engine.sortByTime zone gs).map entry =
      (gs.map entry).mergeSort fun a b : Event × Instant => a.1.fireAt zone ≤ b.1.fireAt zone :=
    List.map_mergeSort fun _ _ _ _ => rfl
  rw [honEntries, honEntries, hsame]

theorem map_event_of_entry {gs hs : List Registration} (hsame : hs.map entry = gs.map entry) :
    hs.map event = gs.map event := by
  have hevents := congrArg (List.map Prod.fst) hsame
  rwa [List.map_map, List.map_map] at hevents

end Registration

theorem Registry.events_of_entries {r s : Registry}
    (hsame : s.live.map Registration.entry = r.live.map Registration.entry) :
    s.events = r.events :=
  Registration.map_event_of_entry (Registration.map_entry_sort hsame)

namespace Registry.Alike

variable {r s : Registry} {l m : List Fire}

theorem takeDue (halike : r.Alike l s m) (now : Instant) :
    (s.takeDue now).1.map Registration.entry = (r.takeDue now).1.map Registration.entry := by
  apply Registration.map_entry_sort
  have honEntries (gs : List Registration) :
      (gs.filter (·.due ≤ now)).map Registration.entry =
        (gs.map Registration.entry).filter (·.2 ≤ now) := by
    rw [List.filter_map]
    rfl
  rw [honEntries, honEntries, halike.entries]

/-- When everything is cancelled, all reports are stale. -/
theorem cancelAll (halike : r.Alike l s m) : r.cancelAll.2.Alike l s.cancelAll.2 m := by
  have hclock (r : Registry) : r.cancelAll.2.timers.clock = r.timers.clock := by
    show (r.dropAll _).timers.clock = _
    rw [dropAll_eq]
  have hpending {r : Registry} {l : List Fire} (hbooks : r.Consistent l) :
      r.cancelAll.2.timers.pending = [] := by
    have hfew := hbooks.cancelAll.length_pending_le
    rw [live_cancelAll] at hfew
    exact List.length_eq_zero_iff.1 (Nat.le_zero.1 hfew)
  have hstale (r : Registry) (l : List Fire) :
      l.map r.cancelAll.2.sketch = (l.map r.sketch).map fun p => (p.1, false) := by
    rw [List.map_map]
    refine List.map_congr_left fun report _ => ?_
    rw [sketch, live_cancelAll]
    rfl
  exact
    { books := halike.books.cancelAll
      otherBooks := halike.otherBooks.cancelAll
      clock := by rw [hclock, hclock, halike.clock]
      entries := by rw [live_cancelAll, live_cancelAll]
      slots := by rw [hpending halike.books, hpending halike.otherBooks]
      sketches := by rw [hstale, hstale, halike.sketches] }

theorem setClock (halike : r.Alike l s m) (i : Instant) :
    (r.withTimers (r.timers.setClock i)).Alike l (s.withTimers (s.timers.setClock i)) m :=
  ⟨halike.books.setClock i, halike.otherBooks.setClock i, rfl, halike.entries, halike.slots,
    halike.sketches⟩

end Registry.Alike

/-! ### An advance of both -/

namespace Timeline

theorem earliest?_slot {ts us : List (Timer Fire)}
    (hsame : us.map Timer.slot = ts.map Timer.slot) :
    (earliest? us).map Timer.slot = (earliest? ts).map Timer.slot := by
  induction ts generalizing us with
  | nil =>
    rw [List.map_nil, List.map_eq_nil_iff] at hsame
    rw [hsame]
  | cons t ts ih =>
    cases us with
    | nil => cases hsame
    | cons u us =>
      obtain ⟨hfirst, hrest⟩ := List.cons.inj hsame
      have hleast := ih hrest
      have hdue : u.due = t.due := congrArg Prod.snd hfirst
      rw [earliest?, earliest?]
      cases hu : earliest? us with
      | none =>
        rw [hu] at hleast
        cases ht : earliest? ts with
        | none => exact congrArg some hfirst
        | some best =>
          rw [ht] at hleast
          cases hleast
      | some best' =>
        rw [hu] at hleast
        cases ht : earliest? ts with
        | none =>
          rw [ht] at hleast
          cases hleast
        | some best =>
          rw [ht] at hleast
          have hdues : best'.due = best.due := congrArg Prod.snd (Option.some.inj hleast)
          simp only [hdues, hdue]
          split
          · exact hleast
          · exact congrArg some hfirst

end Timeline

namespace Registry.Alike

variable {r s : Registry} {l m : List Fire}

/-- Both have nothing to fire, or what fires is alike and so is what is left. -/
theorem popDue? (halike : r.Alike l s m) (target : Instant) :
    r.timers.popDue? target = none ∧ s.timers.popDue? target = none ∨
    ∃ t u, r.timers.popDue? target = some (t, r.timers.cancel t.id) ∧
      s.timers.popDue? target = some (u, s.timers.cancel u.id) ∧
      (r.withTimers ((r.timers.cancel t.id).moveClock t.due)).Alike (l ++ [t.payload])
        (s.withTimers ((s.timers.cancel u.id).moveClock u.due)) (m ++ [u.payload]) := by
  have honSlots (ts : List (Timer Fire)) :
      (ts.filter (·.due ≤ target)).map Timer.slot = (ts.map Timer.slot).filter (·.2 ≤ target) := by
    rw [List.filter_map]
    rfl
  have hdueSlots : (s.timers.pending.filter (·.due ≤ target)).map Timer.slot =
      (r.timers.pending.filter (·.due ≤ target)).map Timer.slot := by
    rw [honSlots, honSlots, halike.slots]
  have hleast := Timeline.earliest?_slot hdueSlots
  cases ht : Timeline.earliest? (r.timers.pending.filter (·.due ≤ target)) with
  | none =>
    rw [ht, Option.map_none, Option.map_eq_none_iff] at hleast
    exact .inl ⟨by rw [Timeline.popDue?, ht], by rw [Timeline.popDue?, hleast]⟩
  | some t =>
    rw [ht] at hleast
    obtain ⟨u, hu, hsame⟩ := Option.map_eq_some_iff.1 hleast
    have hpopped : r.timers.popDue? target = some (t, r.timers.cancel t.id) := by
      rw [Timeline.popDue?, ht]
    have hpopped' : s.timers.popDue? target = some (u, s.timers.cancel u.id) := by
      rw [Timeline.popDue?, hu]
    obtain ⟨hkey, hdue⟩ := Prod.mk.inj hsame
    obtain ⟨hwaits, -⟩ := Timeline.mem_of_popDue? hpopped
    obtain ⟨hwaits', -⟩ := Timeline.mem_of_popDue? hpopped'
    refine .inr ⟨t, u, hpopped, hpopped', ?_⟩
    exact
      { books := (halike.books.fire hpopped).setClock _
        otherBooks := (halike.otherBooks.fire hpopped').setClock _
        clock := by
          show s.timers.clock.later u.due = r.timers.clock.later t.due
          rw [halike.clock, hdue]
        entries := halike.entries
        slots := by
          show (s.timers.cancel u.id).pending.map _ = (r.timers.cancel t.id).pending.map _
          rw [slots_cancel halike.books hwaits, slots_cancel halike.otherBooks hwaits',
            halike.slots, hkey]
        sketches := by
          show (m ++ [u.payload]).map s.sketch = (l ++ [t.payload]).map r.sketch
          rw [List.map_append, List.map_append, halike.sketches, List.map_singleton,
            List.map_singleton, sketch_payload halike.books hwaits,
            sketch_payload halike.otherBooks hwaits', hkey] }

theorem advanceTo (halike : r.Alike l s m) (target : Instant) :
    (r.withTimers (r.timers.advanceTo target).2).Alike
      (l ++ (r.timers.advanceTo target).1.map (·.payload))
      (s.withTimers (s.timers.advanceTo target).2)
      (m ++ (s.timers.advanceTo target).1.map (·.payload)) := by
  induction hsize : r.timers.pending.length using Nat.strong_induction_on
    generalizing r s l m with
  | _ n ih =>
    rcases halike.popDue? target with ⟨hidle, hidle'⟩ | ⟨t, u, hpopped, hpopped', hrest⟩
    · rw [Timeline.advanceTo_of_none hidle, Timeline.advanceTo_of_none hidle']
      simp only [List.map_nil, List.append_nil]
      refine ⟨halike.books.setClock _, halike.otherBooks.setClock _, ?_, halike.entries,
        halike.slots, halike.sketches⟩
      show s.timers.clock.later target = r.timers.clock.later target
      rw [halike.clock]
    · have hshorter := Timeline.length_popDue?_lt hpopped
      rw [Timeline.advanceTo_of_some hpopped, Timeline.advanceTo_of_some hpopped']
      have hlater := ih _ (hsize ▸ hshorter) hrest rfl
      simp only [List.map_cons]
      rw [List.append_cons, List.append_cons m]
      exact hlater

end Registry.Alike

namespace Engine

theorem Sound.perform {e : Engine} (hsound : e.Sound) (op : Operation) :
    (e.perform op).engine.Sound :=
  (leadsTo_perform e op).sound hsound

/-- Two engines in which only the numbers differ. -/
structure Twins (e f : Engine) : Prop where
  alike : e.registry.Alike e.fires f.registry f.fires
  audio : f.audio = e.audio
  rolloverTime : f.rolloverTime = e.rolloverTime
  debounce : f.debounce = e.debounce
  commands : f.commands = e.commands

structure SameHeard (o p : Outcome) : Prop where
  twins : o.engine.Twins p.engine
  heard : p.heard = o.heard

theorem Twins.refl {e : Engine} (hsound : e.Sound) : e.Twins e where
  alike := ⟨hsound.books, hsound.books, rfl, rfl, rfl, rfl⟩
  audio := rfl
  rolloverTime := rfl
  debounce := rfl
  commands := rfl

theorem Twins.trans {e f g : Engine} (hfirst : e.Twins f) (hsecond : f.Twins g) : e.Twins g where
  alike :=
    { books := hfirst.alike.books
      otherBooks := hsecond.alike.otherBooks
      clock := hsecond.alike.clock.trans hfirst.alike.clock
      entries := hsecond.alike.entries.trans hfirst.alike.entries
      slots := hsecond.alike.slots.trans hfirst.alike.slots
      sketches := hsecond.alike.sketches.trans hfirst.alike.sketches }
  audio := hsecond.audio.trans hfirst.audio
  rolloverTime := hsecond.rolloverTime.trans hfirst.rolloverTime
  debounce := hsecond.debounce.trans hfirst.debounce
  commands := hsecond.commands.trans hfirst.commands

theorem SameHeard.trans {o p q : Outcome} (hfirst : SameHeard o p) (hsecond : SameHeard p q) :
    SameHeard o q :=
  ⟨hfirst.twins.trans hsecond.twins, hsecond.heard.trans hfirst.heard⟩

theorem SameHeard.andThen {o p : Outcome} {next next' : Engine → Outcome} (hfirst : SameHeard o p)
    (hrest : SameHeard (next o.engine) (next' p.engine)) :
    SameHeard (o.andThen next) (p.andThen next') := by
  refine ⟨hrest.twins, ?_⟩
  rw [Outcome.heard_andThen, Outcome.heard_andThen, hfirst.heard, hrest.heard]

/-- What is delivered depends on the event, the files, the clock and the memory. -/
theorem twins_notify {e f : Engine} {g h : Registration} (hevent : h.event = g.event)
    (haudio : f.audio = e.audio) (hclock : f.clock = e.clock) (hdebounce : f.debounce = e.debounce)
    (inputs : Inputs) :
    (f.notify inputs h).heard = (e.notify inputs g).heard ∧
      (f.notify inputs h).engine.debounce = (e.notify inputs g).engine.debounce := by
  have hkey : h.key = g.key := congrArg Event.key hevent
  have hdelivered : (f.deliver h).heard = (e.deliver g).heard ∧
      (f.deliver h).engine.debounce = (e.deliver g).engine.debounce := by
    by_cases hallowed : e.debounce.allows g.key e.clock.millis
    · have hallowed' : f.debounce.allows h.key f.clock.millis := by rwa [hdebounce, hkey, hclock]
      rw [deliver_of_allows hallowed, deliver_of_allows hallowed', haudio, hevent, hdebounce, hkey,
        hclock]
      refine ⟨?_, rfl⟩
      cases e.audio.fileFor g.event with
      | none => rfl
      | some file =>
        show [(h.event, some file, e.clock)] = [(g.event, some file, e.clock)]
        rw [hevent]
    · have hrefused : ¬ f.debounce.allows h.key f.clock.millis := by rwa [hdebounce, hkey, hclock]
      rw [deliver_of_not_allows hallowed, deliver_of_not_allows hrefused]
      exact ⟨rfl, hdebounce⟩
  rw [notify, notify, hevent]
  split
  · exact ⟨rfl, hdebounce⟩
  · split
    · exact ⟨rfl, hdebounce⟩
    · exact hdelivered
  · exact hdelivered

theorem twins_settleAll {gs hs : List Registration}
    (hsame : hs.map Registration.entry = gs.map Registration.entry) {e f : Engine}
    (haudio : f.audio = e.audio) (hclock : f.clock = e.clock) (hdebounce : f.debounce = e.debounce)
    (inputs : Inputs) :
    (settleAll inputs hs f).heard = (settleAll inputs gs e).heard ∧
      (settleAll inputs hs f).engine.debounce = (settleAll inputs gs e).engine.debounce := by
  induction gs generalizing hs e f with
  | nil =>
    rw [List.map_nil, List.map_eq_nil_iff] at hsame
    subst hsame
    exact ⟨rfl, hdebounce⟩
  | cons g gs ih =>
    cases hs with
    | nil => cases hsame
    | cons h hs =>
      obtain ⟨hfirst, hrest⟩ := List.cons.inj hsame
      have hevent : h.event = g.event := congrArg Prod.fst hfirst
      have hsettled : (settleDue inputs h f).heard = (settleDue inputs g e).heard ∧
          (settleDue inputs h f).engine.debounce = (settleDue inputs g e).engine.debounce := by
        rw [settleDue, settleDue, hevent]
        split
        · exact ⟨rfl, hdebounce⟩
        · exact twins_notify hevent haudio hclock hdebounce inputs
      obtain ⟨d, a, -, -, houtcome⟩ := settleDue_settles e inputs g
      obtain ⟨d', a', -, -, houtcome'⟩ := settleDue_settles f inputs h
      rw [settleAll, settleAll, Outcome.heard_andThen, Outcome.heard_andThen, hsettled.1]
      have hengines : (settleDue inputs h f).engine.audio = (settleDue inputs g e).engine.audio ∧
          (settleDue inputs h f).engine.clock = (settleDue inputs g e).engine.clock := by
        rw [houtcome, houtcome']
        exact ⟨haudio, hclock⟩
      obtain ⟨hlater, hmemory⟩ := ih hrest hengines.1 hengines.2 hsettled.2
      exact ⟨congrArg _ hlater, hmemory⟩

theorem heard_rebuild (e : Engine) (inputs : Inputs) :
    (e.rebuild inputs).heard = (e.deliverDue inputs).heard := by
  obtain ⟨later, hactions, hsilent⟩ := actions_rebuild e inputs
  have hnone : later.filterMap Action.heard? = [] := by
    refine List.filterMap_eq_nil_iff.2 fun a ha => ?_
    have hunsettled := hsilent a ha
    cases a with
    | handedOff => cases hunsettled
    | _ => rfl
  rw [Outcome.heard, hactions, List.filterMap_append, hnone, List.append_nil]
  rfl

namespace Twins

variable {e f : Engine}

theorem clock (htwins : e.Twins f) : f.clock = e.clock :=
  htwins.alike.clock

theorem fires_eq_nil_iff (htwins : e.Twins f) : f.fires = [] ↔ e.fires = [] := by
  rw [← List.length_eq_zero_iff, ← List.length_eq_zero_iff, htwins.alike.length_eq]

theorem idle_iff (htwins : e.Twins f) : f.nextMessage? = none ↔ e.nextMessage? = none := by
  rw [nextMessage?_eq_none_iff, nextMessage?_eq_none_iff, queues, queues, Prod.mk.injEq,
    Prod.mk.injEq, htwins.fires_eq_nil_iff, htwins.commands]

theorem claimDue (htwins : e.Twins f) :
    f.claimDue.1.map Registration.entry = e.claimDue.1.map Registration.entry := by
  obtain ⟨hreported, hleft⟩ := htwins.alike.claimFires
  show (sortByTime f.clock.zone _).map _ = (sortByTime e.clock.zone _).map _
  rw [htwins.clock]
  apply Registration.map_entry_sortByTime
  rw [List.map_append, List.map_append, hreported]
  exact congrArg _ (hleft.takeDue e.clock)

theorem deliverDue (htwins : e.Twins f) (inputs : Inputs) :
    (f.deliverDue inputs).heard = (e.deliverDue inputs).heard ∧
      (f.deliverDue inputs).engine.debounce = (e.deliverDue inputs).engine.debounce := by
  refine twins_settleAll (e := e.claimDue.2) (f := f.claimDue.2) htwins.claimDue htwins.audio ?_
    htwins.debounce inputs
  rw [clock_claimDue, clock_claimDue, htwins.clock]

theorem rebuild (htwins : e.Twins f) {inputs : Inputs} (hsound : (e.rebuild inputs).engine.Sound)
    (hotherSound : (f.rebuild inputs).engine.Sound) :
    SameHeard (e.rebuild inputs) (f.rebuild inputs) := by
  obtain ⟨hheard, hmemory⟩ := htwins.deliverDue inputs
  obtain ⟨hfires, hcommands⟩ := Prod.mk.inj (queues_rebuild e inputs)
  obtain ⟨hfires', hcommands'⟩ := Prod.mk.inj (queues_rebuild f inputs)
  have hentries : (f.rebuild inputs).engine.registry.live.map Registration.entry =
      (e.rebuild inputs).engine.registry.live.map Registration.entry :=
    entries_rebuild htwins.clock htwins.rolloverTime inputs
  have hslots {g : Engine} (hbooks : g.registry.Consistent g.fires) :
      (g.rebuild inputs).engine.registry.timers.pending.map Timer.slot =
        ((g.rebuild inputs).engine.registry.live.map Registration.entry).map
          fun p => (p.1.key, p.2) := by
    have hpending := pending_rebuild (timersOwned_of_books hbooks) inputs
    rw [List.map_map]
    exact (congrArg _ hpending).trans (List.map_map ..)
  refine ⟨⟨⟨hsound.books, hotherSound.books, ?_, hentries, ?_, ?_⟩, ?_, ?_, ?_, ?_⟩, ?_⟩
  · exact (clock_rebuild f inputs).trans (htwins.clock.trans (clock_rebuild e inputs).symm)
  · rw [hslots htwins.alike.books, hslots htwins.alike.otherBooks, hentries]
  · rw [hfires, hfires']
    rfl
  · rw [audio_rebuild, audio_rebuild, htwins.audio]
  · rw [rolloverTime_rebuild, rolloverTime_rebuild, htwins.rolloverTime]
  · rw [debounce_rebuild, debounce_rebuild, hmemory]
  · rw [hcommands, hcommands', htwins.commands]
  · rw [heard_rebuild, heard_rebuild, hheard]

theorem rollOver (htwins : e.Twins f) {g h : Registration} (hevent : h.event = g.event)
    {inputs : Inputs} (hsound : (e.rollOver inputs g).engine.Sound)
    (hotherSound : (f.rollOver inputs h).engine.Sound) :
    SameHeard (e.rollOver inputs g) (f.rollOver inputs h) := by
  have hkey : h.key = g.key := congrArg Event.key hevent
  by_cases hallowed : e.debounce.allows g.key e.clock.millis
  · have hallowed' : f.debounce.allows h.key f.clock.millis := by
      rwa [htwins.debounce, hkey, htwins.clock]
    rw [rollOver_of_allows hallowed] at hsound ⊢
    rw [rollOver_of_allows hallowed'] at hotherSound ⊢
    have hstamped : ({ e with debounce := e.debounce.stamp g.key e.clock.millis } : Engine).Twins
        { f with debounce := f.debounce.stamp h.key f.clock.millis } :=
      { htwins with debounce := by rw [htwins.debounce, hkey, htwins.clock] }
    have hrebuilt := hstamped.rebuild hsound hotherSound
    exact ⟨hrebuilt.twins, hrebuilt.heard⟩
  · have hrefused : ¬ f.debounce.allows h.key f.clock.millis := by
      rwa [htwins.debounce, hkey, htwins.clock]
    rw [rollOver_of_not_allows hallowed, rollOver_of_not_allows hrefused]
    exact ⟨htwins, rfl⟩

theorem notify (htwins : e.Twins f) {g h : Registration} (hevent : h.event = g.event)
    (hplays : g.event.kind ≠ .rollover) (inputs : Inputs) :
    SameHeard (e.notify inputs g) (f.notify inputs h) := by
  obtain ⟨hheard, hmemory⟩ := twins_notify hevent htwins.audio htwins.clock htwins.debounce inputs
  obtain ⟨d, a, -, houtcome⟩ := notify_settles (e := e) inputs hplays
  obtain ⟨d', a', -, houtcome'⟩ := notify_settles (e := f) (r := h) inputs (hevent ▸ hplays)
  refine ⟨?_, hheard⟩
  rw [houtcome, houtcome'] at hmemory ⊢
  exact { htwins with debounce := hmemory }

theorem clear (htwins : e.Twins f) :
    ({ e with registry := e.registry.cancelAll.2 } : Engine).Twins
      { f with registry := f.registry.cancelAll.2 } :=
  { htwins with alike := htwins.alike.cancelAll }

theorem nextFire (htwins : e.Twins f) (hsound : e.Sound) (hotherSound : f.Sound) {x : Fire}
    {l : List Fire} (hwaiting : e.fires = x :: l) (inputs : Inputs) :
    SameHeard (e.perform (.next inputs)) (f.perform (.next inputs)) := by
  have hafter := hsound.perform (.next inputs)
  have hotherAfter := hotherSound.perform (.next inputs)
  have halike := htwins.alike
  rw [hwaiting] at halike
  cases hwaiting' : f.fires with
  | nil =>
    rw [hwaiting'] at halike
    cases halike.length_eq
  | cons y m =>
    rw [hwaiting'] at halike
    rw [perform_next_of_fires hwaiting, perform_next_of_fires hwaiting'] at *
    rcases halike.takeFired with ⟨g, h, -, hsame, htaken, htaken', hrest⟩ | ⟨htaken, htaken', hrest⟩
    · have hclaimed : (e.claimed g l).Twins (f.claimed h m) := { htwins with alike := hrest }
      have hevent : h.event = g.event := congrArg Prod.fst hsame
      simp only [handleFire, htaken, htaken', hevent] at hafter hotherAfter ⊢
      by_cases hrolls : g.event.kind = .rollover
      · simp only [if_pos hrolls] at hafter hotherAfter ⊢
        exact hclaimed.rollOver hevent hafter hotherAfter
      · simp only [if_neg hrolls]
        exact hclaimed.notify hevent hrolls inputs
    · simp only [handleFire, htaken, htaken']
      exact ⟨{ htwins with alike := hrest }, rfl⟩

theorem nextCommand (htwins : e.Twins f) (hsound : e.Sound) (hotherSound : f.Sound)
    (hunreported : e.fires = []) {command : Command} {commands : List Command}
    (hwaiting : e.commands = command :: commands) (inputs : Inputs) :
    SameHeard (e.perform (.next inputs)) (f.perform (.next inputs)) := by
  have hafter := hsound.perform (.next inputs)
  have hotherAfter := hotherSound.perform (.next inputs)
  have hunreported' := htwins.fires_eq_nil_iff.2 hunreported
  have hwaiting' := htwins.commands.trans hwaiting
  rw [perform_next_of_commands hunreported hwaiting] at hafter ⊢
  rw [perform_next_of_commands hunreported' hwaiting'] at hotherAfter ⊢
  have hleft : ({ e with commands } : Engine).Twins { f with commands } :=
    { htwins with commands := rfl }
  cases command with
  | reschedule reason =>
    have hrebuilt := hleft.rebuild hafter hotherAfter
    exact ⟨hrebuilt.twins, hrebuilt.heard⟩
  | clear => exact ⟨hleft.clear, rfl⟩

theorem next (htwins : e.Twins f) (hsound : e.Sound) (hotherSound : f.Sound) (inputs : Inputs) :
    SameHeard (e.perform (.next inputs)) (f.perform (.next inputs)) := by
  cases hfires : e.fires with
  | cons x l => exact htwins.nextFire hsound hotherSound hfires inputs
  | nil =>
    cases hcommands : e.commands with
    | cons command commands => exact htwins.nextCommand hsound hotherSound hfires hcommands inputs
    | nil =>
      have hidle : e.nextMessage? = none := by rw [nextMessage?, hfires, hcommands]
      rw [perform_next_of_idle hidle, perform_next_of_idle (htwins.idle_iff.2 hidle)]
      exact ⟨htwins, rfl⟩

theorem process (htwins : e.Twins f) (hsound : e.Sound) (hotherSound : f.Sound) (inputs : Inputs) :
    SameHeard (e.processPending inputs).2 (f.processPending inputs).2 := by
  refine processPending_induction (motive := fun e o => ∀ f, e.Twins f → e.Sound → f.Sound →
    SameHeard o (f.processPending inputs).2) ?_ ?_ e f htwins hsound hotherSound
  · intro e hidle f htwins _ _
    rw [processPending_none (htwins.idle_iff.2 hidle)]
    exact ⟨htwins, rfl⟩
  · intro e rest message hwaiting ih f htwins hsound hotherSound
    have hfirst := htwins.next hsound hotherSound inputs
    have hafter := hsound.perform (.next inputs)
    have hotherAfter := hotherSound.perform (.next inputs)
    cases hwaiting' : f.nextMessage? with
    | none =>
      rw [htwins.idle_iff.1 hwaiting'] at hwaiting
      cases hwaiting
    | some p =>
      obtain ⟨message', rest'⟩ := p
      rw [Engine.perform, hwaiting] at hfirst hafter
      rw [Engine.perform, hwaiting'] at hfirst hotherAfter
      rw [processPending_some hwaiting']
      exact hfirst.andThen (ih _ hfirst.twins hafter hotherAfter)

theorem perform (htwins : e.Twins f) (hsound : e.Sound) (hotherSound : f.Sound) (op : Operation) :
    SameHeard (e.perform op) (f.perform op) := by
  cases op with
  | rebuild inputs =>
    exact htwins.rebuild (hsound.perform (.rebuild inputs)) (hotherSound.perform (.rebuild inputs))
  | clear => exact ⟨htwins.clear, rfl⟩
  | request command =>
    exact ⟨{ htwins with commands := congrArg (· ++ [command]) htwins.commands }, rfl⟩
  | next inputs => exact htwins.next hsound hotherSound inputs
  | process inputs => exact htwins.process hsound hotherSound inputs
  | advanceTo target => exact ⟨{ htwins with alike := htwins.alike.advanceTo target }, rfl⟩
  | setClock i => exact ⟨{ htwins with alike := htwins.alike.setClock i }, rfl⟩

theorem run (htwins : e.Twins f) (hsound : e.Sound) (hotherSound : f.Sound) (ops : List Operation) :
    SameHeard (e.run ops) (f.run ops) := by
  induction ops generalizing e f with
  | nil => exact ⟨htwins, rfl⟩
  | cons op ops ih =>
    have hfirst := htwins.perform hsound hotherSound op
    exact hfirst.andThen (ih hfirst.twins (hsound.perform op) (hotherSound.perform op))

end Twins

end Engine

end Muezzin
