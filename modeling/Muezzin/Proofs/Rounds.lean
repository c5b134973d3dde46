import Muezzin.Engine.Drive
import Muezzin.Proofs.Perpetuity
import Muezzin.Proofs.Settling

/-!
# Round by round

An engine that is driven moves from one deadline to the next. Each round fires the registrations
with the least deadline, in the order in which they were made, and plays them. So rounds up to some
instant play what is due before it in the order of the deadlines, and where deadlines are equal in
the order of the schedule, which is what a stable sort gives.
-/

namespace Muezzin

namespace Instant

variable {α β : Type}

/-- The order of time; what is at the same time stays in order. -/
def sortBy (time : α → Instant) (xs : List α) : List α :=
  xs.mergeSort fun a b => time a ≤ time b

theorem mem_sortBy {time : α → Instant} {xs : List α} {a : α} : a ∈ sortBy time xs ↔ a ∈ xs :=
  List.mem_mergeSort

theorem map_sortBy (f : α → β) (time : β → Instant) (xs : List α) :
    (sortBy (fun a => time (f a)) xs).map f = sortBy time (xs.map f) :=
  List.map_mergeSort fun _ _ _ _ => rfl

theorem sortBy_of_same {time : α → Instant} {xs : List α} {i : Instant}
    (hsame : ∀ a ∈ xs, time a = i) : sortBy time xs = xs := by
  refine List.mergeSort_of_pairwise (List.pairwise_of_forall_mem_list fun a ha b hb => ?_)
  rw [hsame a ha, hsame b hb]
  exact decide_eq_true (le_refl i)

theorem takeWhile_append_of_neg {p : α → Bool} (xs : List α) {ys : List α}
    (hlater : ∀ b ∈ ys, p b = false) : (xs ++ ys).takeWhile p = xs.takeWhile p := by
  induction xs with
  | nil =>
    cases ys with
    | nil => rfl
    | cons b ys =>
      rw [List.nil_append, List.takeWhile_cons_of_neg (by simp [hlater b List.mem_cons_self])]
      rfl
  | cons a xs ih => simp only [List.cons_append, List.takeWhile_cons, ih]

theorem dropWhile_append_of_neg {p : α → Bool} (xs : List α) {ys : List α}
    (hlater : ∀ b ∈ ys, p b = false) : (xs ++ ys).dropWhile p = xs.dropWhile p ++ ys := by
  induction xs with
  | nil =>
    cases ys with
    | nil => rfl
    | cons b ys =>
      rw [List.nil_append, List.dropWhile_cons_of_neg (by simp [hlater b List.mem_cons_self])]
      rfl
  | cons a xs ih =>
    simp only [List.cons_append, List.dropWhile_cons, ih]
    split <;> rfl

theorem notAfter_trans (time : α → Instant) (a b c : α) (hfirst : decide (time a ≤ time b))
    (hsecond : decide (time b ≤ time c)) : decide (time a ≤ time c) :=
  decide_eq_true (le_trans (of_decide_eq_true hfirst) (of_decide_eq_true hsecond))

theorem notAfter_total (time : α → Instant) (a b : α) :
    decide (time a ≤ time b) || decide (time b ≤ time a) := by
  simp only [Bool.or_eq_true, decide_eq_true_eq]
  exact Int.le_total _ _

theorem pairwise_sortBy (time : α → Instant) (xs : List α) :
    (sortBy time xs).Pairwise fun a b => time a ≤ time b :=
  (List.pairwise_mergeSort (notAfter_trans time) (notAfter_total time) xs).imp of_decide_eq_true

theorem sortBy_cons (time : α → Instant) (a : α) (xs : List α) :
    sortBy time (a :: xs) = (sortBy time xs).takeWhile (fun b => time b < time a) ++
      a :: (sortBy time xs).dropWhile fun b => time b < time a := by
  obtain ⟨before, after, hwhole, hrest, hearlier⟩ :=
    List.mergeSort_cons (notAfter_trans time) (notAfter_total time) a xs
  have hsorted := List.pairwise_mergeSort (notAfter_trans time) (notAfter_total time) (a :: xs)
  rw [hwhole] at hsorted
  have hless : ∀ b ∈ before, decide (time b < time a) = true := by
    intro b hb
    have hnotAfter := hearlier b hb
    rw [Bool.not_eq_true', decide_eq_false_iff_not] at hnotAfter
    exact decide_eq_true (Int.not_le.1 hnotAfter)
  have hnotLess : ∀ b ∈ after, decide (time b < time a) = false := by
    intro b hb
    have hfollowing := (List.pairwise_cons.1 (List.pairwise_append.1 hsorted).2.1).1 b hb
    exact decide_eq_false (Int.not_lt.2 (of_decide_eq_true hfollowing))
  rw [sortBy, sortBy, hwhole, hrest, takeWhile_append_of_neg _ hnotLess,
    dropWhile_append_of_neg _ hnotLess, List.takeWhile_eq_self_iff.2 hless,
    List.dropWhile_eq_nil_iff.2 hless, List.nil_append]

theorem sortBy_filter {time : α → Instant} {early : α → Bool}
    (horder : ∀ a b, early a = true → early b = false → time a < time b) (xs : List α) :
    sortBy time xs =
      sortBy time (xs.filter early) ++ sortBy time (xs.filter fun a => !early a) := by
  induction xs with
  | nil => simp [sortBy]
  | cons a xs ih =>
    have hfirst : ∀ b ∈ sortBy time (xs.filter early), early b = true :=
      fun b hb => (List.mem_filter.1 (mem_sortBy.1 hb)).2
    have hrest : ∀ b ∈ sortBy time (xs.filter fun a => !early a), early b = false :=
      fun b hb => by simpa using (List.mem_filter.1 (mem_sortBy.1 hb)).2
    rw [sortBy_cons, ih]
    cases hisEarly : early a with
    | true =>
      have hnotLess : ∀ b ∈ sortBy time (xs.filter fun a => !early a),
          decide (time b < time a) = false :=
        fun b hb => decide_eq_false (Int.lt_asymm (horder a b hisEarly (hrest b hb)))
      rw [List.filter_cons_of_pos hisEarly, List.filter_cons_of_neg (by simp [hisEarly]),
        sortBy_cons, takeWhile_append_of_neg _ hnotLess, dropWhile_append_of_neg _ hnotLess,
        List.append_assoc, List.cons_append]
    | false =>
      have hless : ∀ b ∈ sortBy time (xs.filter early), decide (time b < time a) = true :=
        fun b hb => decide_eq_true (horder b a (hfirst b hb) hisEarly)
      rw [List.filter_cons_of_neg (by simp [hisEarly]),
        List.filter_cons_of_pos (by simp [hisEarly]),
        sortBy_cons, List.takeWhile_append_of_pos hless, List.dropWhile_append_of_pos hless,
        List.append_assoc]

theorem filter_filter_not_lt {time : α → Instant} {m bound : Instant} (hbefore : m < bound)
    (xs : List α) :
    (xs.filter fun a => ¬ time a ≤ m).filter (fun a => ¬ time a < bound) =
      xs.filter fun a => ¬ time a < bound := by
  rw [List.filter_filter]
  apply List.filter_congr
  intro a _
  have hbelow : time a ≤ m → time a < bound := fun hdue => Int.lt_of_le_of_lt hdue hbefore
  by_cases hdue : time a ≤ m <;> simp [hdue, hbelow]

theorem sortBy_filter_lt {time : α → Instant} {m bound : Instant} (hbefore : m < bound)
    {xs : List α} (hleast : ∀ a ∈ xs, time a ≤ m → time a = m) :
    sortBy time (xs.filter (time · < bound)) = xs.filter (time · ≤ m) ++
      sortBy time ((xs.filter fun a => ¬ time a ≤ m).filter (time · < bound)) := by
  have hbelow (a : α) (hdue : time a ≤ m) : time a < bound := Int.lt_of_le_of_lt hdue hbefore
  have horder (a b : α) (hnow : decide (time a ≤ m) = true)
      (hnotNow : decide (time b ≤ m) = false) : time a < time b :=
    Int.lt_of_le_of_lt (of_decide_eq_true hnow) (Int.not_le.1 (of_decide_eq_false hnotNow))
  have hnow : (xs.filter (time · < bound)).filter (time · ≤ m) = xs.filter (time · ≤ m) := by
    rw [List.filter_filter]
    apply List.filter_congr
    intro a _
    by_cases hdue : time a ≤ m <;> simp [hdue, hbelow]
  have hatOnce : ∀ a ∈ xs.filter (time · ≤ m), time a = m := by
    intro a ha
    obtain ⟨hamong, hdue⟩ := List.mem_filter.1 ha
    exact hleast a hamong (of_decide_eq_true hdue)
  rw [sortBy_filter horder, hnow, sortBy_of_same hatOnce, List.filter_comm]
  simp only [decide_not]

end Instant

namespace Debounce

theorem allows_of_le {d : Debounce Int} {key : String} {now : Int}
    (hrested : ∀ last, d.lastRun? key = some last → last + windowMillis ≤ now) :
    d.allows key now := by
  rw [allows]
  split
  · rfl
  · next last hran =>
    have hminute := hrested last hran
    exact decide_eq_true (by omega)

end Debounce

/-- A registration whose file is handed off at its deadline. -/
def Registration.handOff (audio : AudioConfig) (g : Registration) : Action :=
  .handedOff g ((audio.fileFor g.event).getD "") g.due

namespace Engine

/-- The registration is handed off if it is claimed at its deadline: its announcement is wanted,
there is a file for it, and it has not run in the minute before. -/
structure MayPlay (e : Engine) (inputs : Inputs) (g : Registration) : Prop where
  plays : g.event.kind ≠ .rollover
  wanted : ∃ p, g.event.prayer = some p ∧
    (g.event.kind = .announcement → inputs.withdrawal? p = none)
  voiced : ∃ file, e.audio.fileFor g.event = some file
  rested : ∀ last, e.debounce.lastRun? g.key = some last →
    last + Debounce.windowMillis ≤ g.due.millis

variable {e : Engine} {inputs : Inputs}

theorem notify_of_mayPlay {g : Registration} (hmay : e.MayPlay inputs g) (hdue : e.clock = g.due) :
    e.notify inputs g =
      ⟨{ e with debounce := e.debounce.stamp g.key g.due.millis }, [g.handOff e.audio]⟩ := by
  have hallowed : e.debounce.allows g.key e.clock.millis :=
    Debounce.allows_of_le fun last hran => hdue ▸ hmay.rested last hran
  obtain ⟨file, hvoiced⟩ := hmay.voiced
  obtain ⟨p, hprayer, hwanted⟩ := hmay.wanted
  have hdelivered : e.deliver g =
      ⟨{ e with debounce := e.debounce.stamp g.key g.due.millis }, [g.handOff e.audio]⟩ := by
    rw [deliver_of_allows hallowed, Registration.handOff, hvoiced, hdue]
    rfl
  rw [notify, hprayer]
  cases hkind : g.event.kind with
  | azan => exact hdelivered
  | announcement =>
    simp only [hwanted hkind]
    exact hdelivered
  | rollover => exact absurd hkind hmay.plays

/-- The engine after the registrations have played at their deadlines. -/
def played (e : Engine) (ps : List Registration) (fires : List Fire) : Engine :=
  { e with
    registry := { e.registry with live := e.registry.live.filter (· ∉ ps) }
    debounce := ps.foldl (fun d g => d.stamp g.key g.due.millis) e.debounce
    fires }

theorem played_nil (e : Engine) : e.played [] e.fires = e := by
  simp [played]

theorem played_cons (e : Engine) (g : Registration) (ps : List Registration)
    (fires fires' : List Fire) :
    ({ e.claimed g fires' with debounce := e.debounce.stamp g.key g.due.millis } : Engine).played
      ps fires = e.played (g :: ps) fires := by
  have hkept : (e.registry.live.filter (· != g)).filter (· ∉ ps) =
      e.registry.live.filter (· ∉ g :: ps) := by
    rw [List.filter_filter]
    apply List.filter_congr
    intro h _
    by_cases hsame : h = g <;> simp [hsame]
  rw [played, played, ← hkept]
  rfl

/-- Reports of registrations that may play are handled by playing them. -/
theorem processPending_plays {ps : List Registration} {rest : List Fire}
    (hwaiting : e.fires = ps.map Registration.fire ++ rest)
    (hbooks : e.registry.Consistent e.fires) (hlive : ∀ g ∈ ps, g ∈ e.registry.live)
    (hdue : ∀ g ∈ ps, e.clock = g.due) (hmay : ∀ g ∈ ps, e.MayPlay inputs g) :
    (e.processPending inputs).2 =
      (⟨e.played ps rest, ps.map (Registration.handOff e.audio)⟩ : Outcome).andThen fun f =>
        (f.processPending inputs).2 := by
  induction ps generalizing e with
  | nil =>
    have hsame : e.played [] rest = e := by
      rw [List.map_nil, List.nil_append] at hwaiting
      rw [← hwaiting, played_nil]
    rw [hsame]
    rfl
  | cons g ps ih =>
    let fires := ps.map Registration.fire ++ rest
    have hnext : e.nextMessage? = some (.fire g.fire, { e with fires }) := by
      rw [nextMessage?, hwaiting]
      rfl
    have hhere := hlive g List.mem_cons_self
    have hmayFirst := hmay g List.mem_cons_self
    have hclaim := handleFire_of_live (e := { e with fires }) hbooks hhere inputs
    rw [if_neg hmayFirst.plays] at hclaim
    let f : Engine := { e.claimed g fires with debounce := e.debounce.stamp g.key g.due.millis }
    have hfirst : ({ e with fires } : Engine).handle inputs (.fire g.fire) =
        ⟨f, [g.handOff e.audio]⟩ :=
      hclaim.trans (notify_of_mayPlay (e := e.claimed g fires)
        ⟨hmayFirst.plays, hmayFirst.wanted, hmayFirst.voiced, hmayFirst.rested⟩
        (hdue g List.mem_cons_self))
    have hothers : ∀ h ∈ ps, h ≠ g := by
      rintro h hh rfl
      have hdistinct := hbooks.reports_nodup
      rw [hwaiting] at hdistinct
      exact (List.nodup_cons.1 hdistinct).1
        (List.mem_append_left _ (List.mem_map_of_mem (f := Registration.fire) hh))
    have hleft : f.registry.Consistent fires := by
      rw [hwaiting] at hbooks
      exact hbooks.claim hhere
    -- What has just played is remembered under a key that no other registration has.
    have hmayStill : ∀ h ∈ ps, f.MayPlay inputs h := by
      intro h hh
      have hmayHere := hmay h (List.mem_cons_of_mem _ hh)
      refine ⟨hmayHere.plays, hmayHere.wanted, hmayHere.voiced, fun last hran => ?_⟩
      have hother : h.key ≠ g.key := fun hsame => hothers h hh
        (List.inj_on_of_nodup_map hbooks.keys_nodup
          (hlive h (List.mem_cons_of_mem _ hh)) hhere hsame)
      exact hmayHere.rested last ((Debounce.lastRun?_stamp_of_ne _ hother _).symm.trans hran)
    have hlater := ih (e := f) rfl hleft
      (fun h hh => Registry.mem_remove.2 ⟨hlive h (List.mem_cons_of_mem _ hh), hothers h hh⟩)
      (fun h hh => hdue h (List.mem_cons_of_mem _ hh)) hmayStill
    rw [processPending_some hnext, hfirst, ← played_cons e g ps rest fires]
    simp only [Outcome.andThen, hlater]
    rfl

/-- Exactly these registrations wait, all of them with their timers, and nothing else does. -/
structure Calm (e : Engine) (gs : List Registration) : Prop where
  sound : Moment.Sound ⟨e, [], []⟩
  live : e.registry.live = gs
  pending : e.timers.pending = gs.map Registration.alarm
  queues : e.queues = ([], [])
  zones : ∀ g ∈ gs, g.due.zone = e.clock.zone

/-- What is left of the engine when the registrations have played at their deadlines. -/
structure After (e f : Engine) (ps : List Registration) : Prop where
  audio : f.audio = e.audio
  rolloverTime : f.rolloverTime = e.rolloverTime
  zone : f.clock.zone = e.clock.zone
  clock : f.clock = e.clock ∨ ∃ g ∈ ps, f.clock = g.due
  memory : ∀ key last, f.debounce.lastRun? key = some last →
    e.debounce.lastRun? key = some last ∨ ∃ g ∈ ps, g.key = key ∧ g.due.millis = last

theorem After.refl (e : Engine) : e.After e [] :=
  ⟨rfl, rfl, rfl, .inl rfl, fun _ _ hran => .inl hran⟩

theorem After.trans {e f h : Engine} {ps qs : List Registration} (hfirst : e.After f ps)
    (hsecond : f.After h qs) : e.After h (ps ++ qs) where
  audio := hsecond.audio.trans hfirst.audio
  rolloverTime := hsecond.rolloverTime.trans hfirst.rolloverTime
  zone := hsecond.zone.trans hfirst.zone
  clock := by
    rcases hsecond.clock with hsame | ⟨g, hg, hdue⟩
    · rcases hfirst.clock with hsame' | ⟨g, hg, hdue⟩
      · exact .inl (hsame.trans hsame')
      · exact .inr ⟨g, List.mem_append_left _ hg, hsame.trans hdue⟩
    · exact .inr ⟨g, List.mem_append_right _ hg, hdue⟩
  memory key last hran := by
    rcases hsecond.memory key last hran with hold | ⟨g, hg, hnew⟩
    · rcases hfirst.memory key last hold with holder | ⟨g, hg, hnew⟩
      · exact .inl holder
      · exact .inr ⟨g, List.mem_append_left _ hg, hnew⟩
    · exact .inr ⟨g, List.mem_append_right _ hg, hnew⟩

theorem After.subset {f : Engine} {ps qs : List Registration} (hafter : e.After f ps)
    (hsubset : ps ⊆ qs) : e.After f qs :=
  { hafter with
    clock := hafter.clock.imp_right fun ⟨g, hg, hdue⟩ => ⟨g, hsubset hg, hdue⟩
    memory := fun key last hran =>
      (hafter.memory key last hran).imp_right fun ⟨g, hg, hnew⟩ => ⟨g, hsubset hg, hnew⟩ }

/-- What plays does not keep others from playing. -/
theorem After.mayPlay {f : Engine} {ps : List Registration} (hafter : e.After f ps)
    {g : Registration} (hothers : ∀ h ∈ ps, h.key ≠ g.key) (hmay : e.MayPlay inputs g) :
    f.MayPlay inputs g where
  plays := hmay.plays
  wanted := hmay.wanted
  voiced := hafter.audio ▸ hmay.voiced
  rested last hran := by
    rcases hafter.memory g.key last hran with hold | ⟨h, hh, hsame, -⟩
    · exact hmay.rested last hold
    · exact absurd hsame (hothers h hh)

theorem lastRun?_foldl_stamp {ps : List Registration} {d : Debounce Int} {key : String} {last : Int}
    (hran : (ps.foldl (fun d g => d.stamp g.key g.due.millis) d).lastRun? key = some last) :
    d.lastRun? key = some last ∨ ∃ g ∈ ps, g.key = key ∧ g.due.millis = last := by
  induction ps generalizing d with
  | nil => exact .inl hran
  | cons g ps ih =>
    rcases ih hran with hold | ⟨h, hh, hnew⟩
    · by_cases hsame : key = g.key
      · subst hsame
        rw [Debounce.lastRun?_stamp_self] at hold
        exact .inr ⟨g, List.mem_cons_self, rfl, Option.some.inj hold⟩
      · rw [Debounce.lastRun?_stamp_of_ne _ hsame] at hold
        exact .inl hold
    · exact .inr ⟨h, List.mem_cons_of_mem _ hh, hnew⟩

variable {gs : List Registration} {m stop : Instant}

namespace Calm

theorem books (hcalm : e.Calm gs) : e.registry.Consistent e.fires :=
  hcalm.sound.books

theorem fires (hcalm : e.Calm gs) : e.fires = [] :=
  (Prod.mk.inj hcalm.queues).1

theorem commands (hcalm : e.Calm gs) : e.commands = [] :=
  (Prod.mk.inj hcalm.queues).2

theorem of_empty (hsound : Moment.Sound ⟨e, [], []⟩) (hempty : e.registry.live = [])
    (hidle : e.queues = ([], [])) : e.Calm [] where
  sound := hsound
  live := hempty
  pending := by
    have hfew := hsound.books.length_pending_le
    rw [hempty, List.length_nil] at hfew
    exact List.length_eq_zero_iff.1 (Nat.le_zero.1 hfew)
  queues := hidle
  zones g hg := nomatch hg

/-- The next deadline is the least one. -/
theorem exists_nextDue? (hcalm : e.Calm gs) (hwaits : gs ≠ []) :
    ∃ g ∈ gs, e.timers.nextDue? = some g.due ∧ ∀ h ∈ gs, g.due ≤ h.due := by
  cases hearliest : Timeline.earliest? e.timers.pending with
  | none =>
    have hnone := Timeline.earliest?_eq_none.1 hearliest
    rw [hcalm.pending, List.map_eq_nil_iff] at hnone
    exact absurd hnone hwaits
  | some timer =>
    have hwaiting := Timeline.mem_of_earliest? hearliest
    have hleast := Timeline.earliest?_le hearliest
    rw [hcalm.pending] at hwaiting hleast
    obtain ⟨g, hg, rfl⟩ := List.mem_map.1 hwaiting
    refine ⟨g, hg, by rw [Timeline.nextDue?, hearliest]; rfl, fun h hh => ?_⟩
    exact hleast h.alarm (List.mem_map_of_mem hh)

variable {first : Registration} (hcalm : e.Calm gs) (hwaits : first ∈ gs)
  (hleast : ∀ g ∈ gs, first.due ≤ g.due)
include hcalm hwaits hleast

theorem due_eq {g : Registration} (hg : g ∈ gs) (hdue : g.due ≤ first.due) : g.due = first.due :=
  Instant.eq_of_le hdue (hleast g hg) ((hcalm.zones g hg).trans (hcalm.zones first hwaits).symm)

/-- Moving to the least deadline reports the registrations that have it, in order. -/
theorem advanceTo (hahead : e.clock ≤ first.due) :
    (e.advanceTo first.due).2 =
      { e with
        registry := e.registry.withTimers
          { e.timers with
            clock := first.due
            pending := (gs.filter fun g => ¬ g.due ≤ first.due).map Registration.alarm }
        fires := (gs.filter (·.due ≤ first.due)).map Registration.fire } := by
  have hids : (e.timers.pending.map Timer.id).Nodup := by
    rw [hcalm.pending, List.map_map, ← hcalm.live]
    exact hcalm.books.timers_nodup
  have honTime : ∀ timer ∈ e.timers.pending, timer.due ≤ first.due → timer.due = first.due := by
    intro timer hwaiting
    rw [hcalm.pending] at hwaiting
    obtain ⟨g, hg, rfl⟩ := List.mem_map.1 hwaiting
    exact hcalm.due_eq hwaits hleast hg
  have hnow : e.timers.clock.later first.due = first.due :=
    Instant.later_of_le hahead (hcalm.zones first hwaits).symm
  rw [Engine.advanceTo, Timeline.advanceTo_of_least hids honTime, hcalm.pending, List.filter_map,
    List.filter_map, hcalm.fires, hnow]
  simp only [List.nil_append, List.map_map]
  rfl

end Calm

theorem round?_eq (hnext : e.timers.nextDue? = some m) (hwithin : m ≤ stop) (inputs : Inputs) :
    e.round? inputs stop = some ((e.advanceTo m).2.processPending inputs).2 := by
  rw [round?, hnext]
  exact if_neg (Int.not_lt.2 hwithin)

theorem sound_advanceTo (hsound : Moment.Sound ⟨e, [], []⟩) (target : Instant) :
    Moment.Sound ⟨(e.advanceTo target).2, [], []⟩ :=
  (steps_advanceTo e target []).keep Moment.Step.sound hsound

theorem sound_processPending (hsound : Moment.Sound ⟨e, [], []⟩) (inputs : Inputs) :
    Moment.Sound ⟨(e.processPending inputs).2.engine, [], []⟩ := by
  have hafter := (leadsTo_processPending e inputs []).keep Moment.Step.sound hsound
  exact ⟨hafter.books, hafter.proper, hafter.known⟩

theorem andThen_processPending {o : Outcome} (hidle : o.engine.queues = ([], []))
    (inputs : Inputs) : (o.andThen fun f => (f.processPending inputs).2) = o := by
  obtain ⟨hfires, hcommands⟩ := Prod.mk.inj hidle
  have hnothing : (o.engine.processPending inputs).2 = ⟨o.engine, []⟩ := by
    rw [processPending_none (by rw [nextMessage?, hfires, hcommands])]
  rw [Outcome.andThen, hnothing, List.append_nil]

theorem Calm.round_plays (hcalm : e.Calm gs) {first : Registration} (hwaits : first ∈ gs)
    (hnext : e.timers.nextDue? = some first.due) (hleast : ∀ g ∈ gs, first.due ≤ g.due)
    (hwithin : first.due ≤ stop) (hahead : e.clock ≤ first.due)
    (hmay : ∀ g ∈ gs, g.due ≤ first.due → e.MayPlay inputs g) :
    ∃ f, e.round? inputs stop =
        some ⟨f, (gs.filter (·.due ≤ first.due)).map (Registration.handOff e.audio)⟩ ∧
      f.Calm (gs.filter fun g => ¬ g.due ≤ first.due) ∧
      e.After f (gs.filter (·.due ≤ first.due)) ∧ f.clock = first.due := by
  have hzone := hcalm.zones first hwaits
  have hfired {g : Registration} (h : g ∈ gs.filter (·.due ≤ first.due)) :
      g ∈ gs ∧ g.due ≤ first.due := by
    rwa [List.mem_filter, decide_eq_true_eq] at h
  let moved := (e.advanceTo first.due).2
  have hmoved_eq : moved = _ := hcalm.advanceTo hwaits hleast hahead
  have hsound : Moment.Sound ⟨moved, [], []⟩ := sound_advanceTo hcalm.sound first.due
  have hclock : moved.clock = first.due := by
    rw [hmoved_eq]
    rfl
  let f := moved.played (gs.filter (·.due ≤ first.due)) []
  have hidle : f.queues = ([], []) := congrArg (Prod.mk []) hcalm.commands
  have hwaiting : moved.fires = (gs.filter (·.due ≤ first.due)).map Registration.fire ++ [] := by
    rw [hmoved_eq, List.append_nil]
  have hplays : (moved.processPending inputs).2 =
      ⟨f, (gs.filter (·.due ≤ first.due)).map (Registration.handOff e.audio)⟩ := by
    rw [processPending_plays hwaiting hsound.books
      (fun g hg => hcalm.live.symm ▸ (hfired hg).1)
      (fun g hg => hclock.trans (hcalm.due_eq hwaits hleast (hfired hg).1 (hfired hg).2).symm)
      (fun g hg => { hmay g (hfired hg).1 (hfired hg).2 with })]
    exact andThen_processPending hidle inputs
  refine ⟨f, (round?_eq hnext hwithin inputs).trans (congrArg some hplays), ?_, ?_, hclock⟩
  · have hsoundAfter := sound_processPending hsound inputs
    rw [hplays] at hsoundAfter
    exact
      { sound := hsoundAfter
        live := by
          show e.registry.live.filter (· ∉ gs.filter (·.due ≤ first.due)) = _
          rw [hcalm.live]
          apply List.filter_congr
          intro g hg
          simp [hg]
        pending := by
          show moved.timers.pending = _
          rw [hmoved_eq]
          rfl
        queues := hidle
        zones := fun g hg =>
          (hcalm.zones g (List.mem_filter.1 hg).1).trans
            (hzone.symm.trans (congrArg _ hclock.symm)) }
  · exact
      { audio := rfl
        rolloverTime := rfl
        zone := (congrArg Instant.zone hclock).trans hzone
        clock := .inr
          ⟨first, List.mem_filter.2 ⟨hwaits, decide_eq_true (Instant.le_refl _)⟩, hclock⟩
        memory := fun key last hran => lastRun?_foldl_stamp hran }

/-- A round in which only a rollover is due, and it may run. -/
theorem Calm.round_rollover {r : Registration} (hcalm : e.Calm [r])
    (hrolls : r.event.kind = .rollover) (hwithin : r.due ≤ stop) (hahead : e.clock ≤ r.due)
    (hrested : ∀ last, e.debounce.lastRun? r.key = some last →
      last + Debounce.windowMillis ≤ r.due.millis) (inputs : Inputs) :
    ∃ f : Engine, e.round? inputs stop =
        some ((⟨f, [.rolledOver r r.due]⟩ : Outcome).andThen (rebuild · inputs)) ∧
      f.Calm [] ∧ f.clock = r.due ∧ f.audio = e.audio ∧ f.rolloverTime = e.rolloverTime ∧
      f.debounce = e.debounce.stamp r.key r.due.millis := by
  obtain ⟨g, hwaits, hnext, hleast⟩ := hcalm.exists_nextDue? (List.cons_ne_nil r [])
  obtain rfl : r = g := (List.mem_singleton.1 hwaits).symm
  let moved := (e.advanceTo r.due).2
  have hmoved_eq : moved = _ := hcalm.advanceTo hwaits hleast hahead
  have hsound : Moment.Sound ⟨moved, [], []⟩ := sound_advanceTo hcalm.sound r.due
  have hclock : moved.clock = r.due := by
    rw [hmoved_eq]
    rfl
  have hfires : moved.fires = [r.fire] := by
    rw [hmoved_eq]
    simp [Instant.le_refl]
  have hlive : moved.registry.live = [r] := hcalm.live
  have hhere : r ∈ moved.registry.live := hlive ▸ List.mem_cons_self
  have hallowed : (moved.claimed r []).debounce.allows r.key (moved.claimed r []).clock.millis := by
    have hnow : (moved.claimed r []).clock = r.due := hclock
    rw [hnow]
    exact Debounce.allows_of_le hrested
  let f : Engine :=
    { moved.claimed r [] with debounce := moved.debounce.stamp r.key moved.clock.millis }
  have hclaim : Moment.Step ⟨moved, [], []⟩ ⟨moved.claimed r [], [r], []⟩ := .claim hfires hhere
  have hsettled : Settlement (moved.claimed r []) inputs r f.debounce (.rolledOver r moved.clock) :=
    .rolledOver hrolls hallowed
  have hafter := (Moment.Step.settle hsettled).sound (hclaim.sound hsound)
  have hmessage : moved.nextMessage? = some (.fire r.fire, { moved with fires := [] }) := by
    rw [nextMessage?, hfires]
  have hhandled : ({ moved with fires := [] } : Engine).handle inputs (.fire r.fire) =
      (⟨f, [.rolledOver r r.due]⟩ : Outcome).andThen (rebuild · inputs) := by
    have hclaimed := handleFire_of_live (e := { moved with fires := [] }) hsound.books hhere inputs
    rw [if_pos hrolls] at hclaimed
    rw [← hclock]
    exact hclaimed.trans (rollOver_of_allows hallowed inputs)
  let o : Outcome := (⟨f, [.rolledOver r r.due]⟩ : Outcome).andThen (rebuild · inputs)
  have hidle : o.engine.queues = ([], []) :=
    (queues_rebuild f inputs).trans (congrArg (Prod.mk []) hcalm.commands)
  have hprocessed : (moved.processPending inputs).2 = o := by
    rw [processPending_some hmessage, hhandled]
    exact andThen_processPending hidle inputs
  have hempty : f.registry.live = [] := by
    show moved.registry.live.filter (· != r) = []
    rw [hlive]
    simp
  refine ⟨f, (round?_eq hnext hwithin inputs).trans (congrArg some hprocessed),
    .of_empty ⟨hafter.books, hafter.proper, hafter.known⟩ hempty
      (congrArg (Prod.mk []) hcalm.commands),
    hclock, rfl, rfl, ?_⟩
  show moved.debounce.stamp r.key moved.clock.millis = _
  rw [hclock]
  rfl

/-- So many rounds lead to the outcome, and all further ones go on from there. -/
def Drives (e : Engine) (inputs : Inputs) (stop : Instant) (rounds : Nat) (o : Outcome) : Prop :=
  ∀ more, driveFor inputs stop (rounds + more) e = o.andThen (driveFor inputs stop more)

namespace Drives

theorem refl (e : Engine) (inputs : Inputs) (stop : Instant) : e.Drives inputs stop 0 ⟨e, []⟩ := by
  intro more
  rw [Nat.zero_add]
  rfl

theorem round {o : Outcome} (hround : e.round? inputs stop = some o) :
    e.Drives inputs stop 1 o := by
  intro more
  rw [Nat.add_comm, driveFor, hround]

theorem trans {rounds more : Nat} {o p : Outcome} (hfirst : e.Drives inputs stop rounds o)
    (hsecond : o.engine.Drives inputs stop more p) :
    e.Drives inputs stop (rounds + more) ⟨p.engine, o.actions ++ p.actions⟩ := by
  intro rest
  rw [Nat.add_assoc, hfirst, Outcome.andThen, hsecond]
  simp only [Outcome.andThen, List.append_assoc]

/-- Where no round is left, it does not matter how many more there might be. -/
theorem driveFor_eq {rounds limit : Nat} {o : Outcome} (hdrives : e.Drives inputs stop rounds o)
    (hdone : o.engine.round? inputs stop = none) (henough : rounds ≤ limit) :
    driveFor inputs stop limit e = o := by
  obtain ⟨more, rfl⟩ := Nat.exists_eq_add_of_le henough
  have hrest : driveFor inputs stop more o.engine = ⟨o.engine, []⟩ := by
    cases more with
    | zero => rfl
    | succ more => rw [driveFor, hdone]
  rw [hdrives, Outcome.andThen, hrest, List.append_nil]

end Drives

/-- What may play before some instant is handed off in the order of the deadlines, and in order
where they are equal. -/
theorem Calm.drives_plays (hcalm : e.Calm gs) (bound : Instant)
    (hmay : ∀ g ∈ gs, g.due < bound → e.MayPlay inputs g)
    (hahead : ∀ g ∈ gs, g.due < bound → e.clock ≤ g.due)
    (hwithin : ∀ g ∈ gs, g.due < bound → g.due ≤ stop) :
    ∃ f rounds, rounds ≤ (gs.filter (·.due < bound)).length ∧
      e.Drives inputs stop rounds ⟨f, (Instant.sortBy Registration.due
        (gs.filter (·.due < bound))).map (Registration.handOff e.audio)⟩ ∧
      f.Calm (gs.filter fun g => ¬ g.due < bound) ∧ e.After f (gs.filter (·.due < bound)) := by
  induction hsize : (gs.filter (·.due < bound)).length using Nat.strong_induction_on
    generalizing e gs with
  | _ count ih =>
    by_cases hnone : gs.filter (·.due < bound) = []
    · have hall : gs.filter (fun g => ¬ g.due < bound) = gs := by
        rw [List.filter_eq_self]
        intro g hg
        simpa using List.filter_eq_nil_iff.1 hnone g hg
      rw [hnone, hall, Instant.sortBy, List.mergeSort_nil]
      exact ⟨e, 0, Nat.zero_le _, .refl e inputs stop, hcalm, .refl e⟩
    · obtain ⟨early, hearly⟩ := List.exists_mem_of_ne_nil _ hnone
      obtain ⟨hwaitsEarly, hisEarly⟩ := List.mem_filter.1 hearly
      obtain ⟨first, hwaits, hnext, hleast⟩ := hcalm.exists_nextDue?
        (List.ne_nil_of_mem hwaitsEarly)
      have hbefore : first.due < bound :=
        Int.lt_of_le_of_lt (hleast early hwaitsEarly) (of_decide_eq_true hisEarly)
      have hbelow {g : Registration} (hdue : g.due ≤ first.due) : g.due < bound :=
        Int.lt_of_le_of_lt hdue hbefore
      have hmayNow : ∀ g ∈ gs, g.due ≤ first.due → e.MayPlay inputs g :=
        fun g hg hdue => hmay g hg (hbelow hdue)
      obtain ⟨f, hround, hcalmLater, hafter, hclock⟩ := hcalm.round_plays hwaits hnext hleast
        (hwithin first hwaits hbefore) (hahead first hwaits hbefore) hmayNow
      -- The round plays the first of those that are due before the bound; the others are fewer.
      let later := gs.filter fun g => ¬ g.due ≤ first.due
      have hlater {g : Registration} (h : g ∈ later) : g ∈ gs ∧ ¬ g.due ≤ first.due := by
        rwa [List.mem_filter, decide_eq_true_eq] at h
      have hfewer : (later.filter (·.due < bound)).length < count := by
        rw [← hsize, List.filter_comm]
        apply List.length_filter_lt_length_iff_exists.2
        exact ⟨first, List.mem_filter.2 ⟨hwaits, decide_eq_true hbefore⟩, by simp [Instant.le_refl]⟩
      have hmayLater : ∀ g ∈ later, g.due < bound → f.MayPlay inputs g := by
        intro g hg hdue
        obtain ⟨hwaitsToo, hnotNow⟩ := hlater hg
        refine hafter.mayPlay (fun h hh hsame => ?_) (hmay g hwaitsToo hdue)
        obtain ⟨hwaitsNow, hisNow⟩ := List.mem_filter.1 hh
        have hdistinct := hcalm.books.keys_nodup
        rw [hcalm.live] at hdistinct
        have : h = g := List.inj_on_of_nodup_map hdistinct hwaitsNow hwaitsToo hsame
        exact hnotNow (of_decide_eq_true (this ▸ hisNow))
      obtain ⟨f', rounds, hfew, hdrives, hcalmEnd, hafter'⟩ := ih _ hfewer hcalmLater hmayLater
        (fun g hg _ => hclock ▸ hleast g (hlater hg).1) (fun g hg => hwithin g (hlater hg).1) rfl
      refine ⟨f', 1 + rounds, by omega, ?_, ?_, ?_⟩
      · rw [Instant.sortBy_filter_lt hbefore fun g => hcalm.due_eq hwaits hleast, List.map_append]
        rw [hafter.audio] at hdrives
        exact (Drives.round hround).trans hdrives
      · rwa [Instant.filter_filter_not_lt hbefore] at hcalmEnd
      · refine (hafter.trans hafter').subset fun g hg => ?_
        rcases List.mem_append.1 hg with hnow | hnotNow
        · obtain ⟨hwaitsNow, hisNow⟩ := List.mem_filter.1 hnow
          exact List.mem_filter.2 ⟨hwaitsNow, decide_eq_true (hbelow (of_decide_eq_true hisNow))⟩
        · obtain ⟨hwaitsToo, hisBelow⟩ := List.mem_filter.1 hnotNow
          exact List.mem_filter.2 ⟨(hlater hwaitsToo).1, hisBelow⟩

end Engine

end Muezzin
