import Muezzin.Proofs.Sessions
import Muezzin.Proofs.Warrants

/-!
# No change of the settings is lost

Whoever changes the settings tells the loop, and this waits in the feed of the loop until the loop
has seen it. A feed keeps 64 changes and a note that there were more, so there can be fewer rebuilds
than changes, but the loop never comes to rest between a change and a rebuild that follows it. Since
a rebuild reads the switches as they are at that moment, whatever waits while the loop rests is
allowed by the switches as they are.
-/

namespace Muezzin

namespace ChangeFeed

theorem size_le (feed : ChangeFeed) : feed.size ≤ capacity + 1 := by
  have := feed.waiting_le
  unfold size
  split <;> omega

theorem size_push (feed : ChangeFeed) (change : SettingsChange) :
    (feed.push change).size = min (feed.size + 1) (capacity + 1) := by
  have hbound := feed.waiting_le
  unfold push
  split
  · next hroom =>
    cases hmissed : feed.missed
    · simp only [size, hmissed, List.length_append, List.length_singleton, Bool.false_eq_true,
        if_false]
      omega
    · simp only [size, hmissed, List.length_append, List.length_singleton, if_true]
      omega
  · next hfull =>
    have : 0 < capacity := by decide
    simp only [size, List.length_append, List.length_singleton, List.length_tail, if_true]
    omega

end ChangeFeed

theorem Rehearsal.eq_ok_of_orFault {α : Type} {fault : Option Error} {result : Except Error α}
    {a : α} (hread : orFault fault result = .ok a) : result = .ok a := by
  cases fault with
  | none => exact hread
  | some e => cases hread

def MemorySettings.Allows (m : MemorySettings) (ev : Event) : Prop :=
  ∃ settings p, m.prayers = some settings ∧ ev.prayer = some p ∧
    (Enablement.resolve m.flags (PrayerSettings.toggles settings p)).allows ev.kind

namespace Action

theorem countP_of_isAside {actions : List Action} (haside : ∀ a ∈ actions, a.IsAside) :
    actions.countP isAttempt = 0 ∧ actions.countP isPrompt = 0 ∧
      actions.countP isChange = 0 := by
  refine ⟨?_, ?_, ?_⟩
  · exact List.countP_eq_zero.2 fun a ha => by simp [(haside a ha).attempt]
  · exact List.countP_eq_zero.2 fun a ha => by simp [(haside a ha).prompt]
  · exact List.countP_eq_zero.2 fun a ha => by simp [isChange, (haside a ha).change]

/-- There is one attempt to rebuild for every reason, and so many of these are changes. -/
def Balanced (actions : List Action) (changes : Nat) : Prop :=
  actions.countP isChange = changes ∧
    actions.countP isAttempt = changes + actions.countP isPrompt

theorem balanced_of_isAside {actions : List Action} (haside : ∀ a ∈ actions, a.IsAside) :
    Balanced actions 0 := by
  obtain ⟨hattempts, hprompts, hchanges⟩ := countP_of_isAside haside
  exact ⟨hchanges, by rw [hattempts, hprompts]⟩

theorem Balanced.append {actions more : List Action} {m n : Nat} (hfirst : Balanced actions m)
    (hlater : Balanced more n) : Balanced (actions ++ more) (m + n) := by
  obtain ⟨hchanges, hattempts⟩ := hfirst
  obtain ⟨hchanges', hattempts'⟩ := hlater
  rw [Balanced, List.countP_append, List.countP_append, List.countP_append]
  omega

end Action

namespace Engine

theorem balanced_rebuild (e : Engine) (inputs : Inputs) {a : Action} {changes : Nat}
    (hchange : [a].countP Action.isChange = changes) (hattempt : [a].countP Action.isAttempt = 0)
    (hreason : changes + [a].countP Action.isPrompt = 1) :
    Action.Balanced (a :: (e.rebuild inputs).actions) changes := by
  obtain ⟨before, later, hactions, hearly, hlate⟩ := e.actions_rebuild_attempt inputs
  have hfirst := Action.countP_of_isAside hearly
  have hlast := Action.countP_of_isAside hlate
  have hrebuild : (e.rebuild inputs).actions.countP Action.isAttempt = 1 ∧
      (e.rebuild inputs).actions.countP Action.isPrompt = 0 ∧
      (e.rebuild inputs).actions.countP Action.isChange = 0 := by
    simp [hactions, hfirst, hlast, List.countP_cons, Action.isAttempt, Action.isPrompt,
      Action.isChange, Action.change?]
  rw [← List.singleton_append, Action.Balanced, List.countP_append, List.countP_append,
    List.countP_append]
  omega

/-- A message is one of the reasons for a rebuild, or does not lead to any. -/
theorem Response.balanced {e : Engine} {inputs : Inputs} {message : Message} {o : Outcome}
    (hresponse : e.Response inputs message o) : Action.Balanced o.actions 0 := by
  cases hresponse with
  | rest hkept hqueues haside => exact Action.balanced_of_isAside haside
  | @rollOver report f => exact f.balanced_rebuild inputs rfl rfl rfl
  | reschedule reason => exact e.balanced_rebuild inputs rfl rfl rfl
  | clear => exact ⟨rfl, rfl⟩

/-- Whatever waits and plays is allowed by the switches. -/
def Heeds (e : Engine) (m : MemorySettings) : Prop :=
  ∀ r ∈ e.registry.live, r.event.kind ≠ .rollover → m.Allows r.event

/-- After a rebuild everything that waits is allowed by the switches as they were read, also if
reading them has failed. -/
theorem heeds_rebuild (e : Engine) (m : MemorySettings) (told : Telling) :
    (e.rebuild (told.inputs m.store)).engine.Heeds m := by
  intro r hlive hplays
  cases hloaded : (told.inputs m.store).load e.clock.date with
  | error reason =>
    rw [(empties_rebuild hloaded).live] at hlive
    cases hlive
  | ok day =>
    obtain ⟨-, hsettings, hflags⟩ := Inputs.load_eq_ok_iff.1 hloaded
    have hprayers : m.prayers = some day.settings :=
      Except.ok.inj (Rehearsal.eq_ok_of_orFault hsettings)
    have hflags : m.flags = day.flags := Except.ok.inj (Rehearsal.eq_ok_of_orFault hflags)
    obtain ⟨hscheduled, -⟩ := (schedules_rebuild hloaded).entries.due_eq hlive
    obtain ⟨⟨p, hprayer, -, hallowed⟩, -⟩ := DailySchedule.allows_of_mem_events hscheduled hplays
    exact ⟨day.settings, p, hprayers, hprayer, hflags ▸ hallowed⟩

end Engine

namespace Session

variable {s : Session}

/-- The turn ends with a rebuild, which reads the settings as they are. -/
def Rebuilds (s : Session) (told : Telling) : Prop :=
  ∃ lead : Outcome, (⟨(s.turn told).1.engine, (s.turn told).2⟩ : Outcome) =
    lead.andThen (Engine.rebuild · (told.inputs s.settings.store))

/-- A rebuild is still to come before the loop can rest. -/
def Owes (s : Session) : Prop :=
  s.phase = .opening ∨ 0 < s.feed.size

theorem Idle.not_owes (hidle : s.Idle) : ¬ s.Owes := by
  rintro (hopening | hunseen)
  · rw [hidle.1] at hopening
    cases hopening
  · exact absurd hidle.feed (Nat.ne_of_gt hunseen)

theorem size_feed_update (hwatches : s.Watches) {h : Happening} (hupdate : h.isUpdate) :
    (s.next h).feed.size = min (s.feed.size + 1) (ChangeFeed.capacity + 1) := by
  obtain ⟨-, change, hfeed⟩ := feed_update hwatches hupdate
  rw [hfeed, ChangeFeed.size_push]

/-- As long as the loop gets no turn, its feed fills up to 64 changes and the note. -/
theorem size_feed_gap (hwatches : s.Watches) {gap : List Happening}
    (hnoTurns : ∀ h ∈ gap, h.isTurn = false) :
    (s.after gap).feed.size =
      min (s.feed.size + gap.countP Happening.isUpdate) (ChangeFeed.capacity + 1) := by
  induction gap generalizing s with
  | nil => exact (Nat.min_eq_left s.feed.size_le).symm
  | cons h gap ih =>
    have hrest := ih (hwatches.next h) fun h' hlater => hnoTurns h' (List.mem_cons_of_mem _ hlater)
    rw [after_cons, hrest, List.countP_cons]
    cases hupdate : h.isUpdate with
    | true =>
      rw [size_feed_update hwatches hupdate]
      simp only [if_true]
      omega
    | false =>
      rw [(feed_next hupdate (hnoTurns h List.mem_cons_self)).2]
      rfl

theorem balanced_turn (hwatches : s.Watches) (told : Telling) :
    ∃ changes, Action.Balanced (s.turn told).2 changes ∧
      s.feed.size = (s.turn told).1.feed.size + changes := by
  have hturn := s.turn_turn told
  generalize s.turn told = p at hturn ⊢
  cases hturn with
  | opening => exact ⟨0, s.engine.balanced_rebuild _ rfl rfl rfl, rfl⟩
  | @message message rest => exact ⟨0, (rest.response_handle _ message).balanced, rfl⟩
  | change hphase hidle hwaiting =>
    refine ⟨1, s.engine.balanced_rebuild _ rfl rfl rfl, ?_⟩
    rw [feed_resume hwatches]
    exact ChangeFeed.size_next? hwaiting
  | close | wait => exact ⟨0, ⟨rfl, rfl⟩, rfl⟩

/-- While nothing changes, every change that the loop sees is one less in its feed. -/
theorem balanced_actions (hwatches : s.Watches) {hs : List Happening}
    (hnoUpdates : ∀ h ∈ hs, h.isUpdate = false) :
    ∃ changes, Action.Balanced (s.actions hs) changes ∧
      s.feed.size = (s.after hs).feed.size + changes := by
  induction hs generalizing s with
  | nil => exact ⟨0, ⟨rfl, rfl⟩, rfl⟩
  | cons h hs ih =>
    have hfirst : ∃ changes, Action.Balanced (s.perform h).2 changes ∧
        s.feed.size = (s.next h).feed.size + changes := by
      cases hturn : h.isTurn with
      | true =>
        cases h with
        | turn told => exact balanced_turn hwatches told
        | _ => cases hturn
      | false =>
        obtain ⟨hsilent, hfeed⟩ := feed_next (hnoUpdates h List.mem_cons_self) hturn
        rw [hfeed, hsilent]
        exact ⟨0, ⟨rfl, rfl⟩, rfl⟩
    obtain ⟨changes, hbalanced, hsize⟩ := hfirst
    obtain ⟨more, hlater, hrest⟩ := ih (hwatches.next h) fun h' hlater =>
      hnoUpdates h' (List.mem_cons_of_mem _ hlater)
    refine ⟨changes + more, hbalanced.append hlater, ?_⟩
    rw [after_cons]
    omega

theorem rebuilds_or_keeps (s : Session) (told : Telling) :
    s.Rebuilds told ∨ s.phase ≠ .opening ∧ ∃ e phase,
      (s.turn told).1 = { s with engine := e, phase } ∧
        ∀ r ∈ e.registry.live, r ∈ s.engine.registry.live := by
  have hturn := s.turn_turn told
  have hcleared (e : Engine) {live : List Registration} :
      ∀ r ∈ e.clear.2.engine.registry.live, r ∈ live := by
    intro r hr
    have hempty : e.clear.2.engine.registry.live = [] := Registry.live_cancelAll e.registry
    rw [hempty] at hr
    cases hr
  rw [Rebuilds]
  generalize s.turn told = p at hturn ⊢
  cases hturn with
  | opening => exact .inl ⟨⟨s.engine, [.started]⟩, rfl⟩
  | @message message rest hphase hwaiting =>
    have hresponse := rest.response_handle (told.inputs s.settings.store) message
    have hregistry : rest.registry = s.engine.registry := by
      rcases Engine.nextMessage?_cases hwaiting with ⟨_, _, -, -, rfl⟩ | ⟨_, _, -, -, -, rfl⟩ <;>
        rfl
    generalize rest.handle _ message = o at hresponse ⊢
    cases hresponse with
    | @rest _ o hkept =>
      rw [hregistry] at hkept
      exact .inr ⟨by rw [hphase]; decide, o.engine, s.phase, rfl, hkept⟩
    | @rollOver _ f r now => exact .inl ⟨⟨f, [.rolledOver r now]⟩, rfl⟩
    | reschedule reason => exact .inl ⟨⟨rest, [.rescheduling reason]⟩, rfl⟩
    | clear => exact .inr ⟨by rw [hphase]; decide, rest.clear.2.engine, s.phase, rfl, hcleared rest⟩
  | @change change => exact .inl ⟨⟨s.engine, [.changed change]⟩, rfl⟩
  | close hidle =>
    exact .inr ⟨by rw [hidle.1]; decide, s.engine.clear.2.engine, .closed, rfl, hcleared _⟩
  | wait hbegun => exact .inr ⟨hbegun, s.engine, s.phase, rfl, fun _ hlive => hlive⟩

theorem switches_turn (s : Session) (told : Telling) :
    ∃ watchers, (s.turn told).1.settings = { s.settings with watchers } := by
  have hturn := s.turn_turn told
  generalize s.turn told = p at hturn ⊢
  cases hturn with
  | change => exact ⟨_, rfl⟩
  | opening | message | close | wait => exact ⟨s.settings.watchers, rfl⟩

theorem Rebuilds.heeds {told : Telling} (hrebuilds : s.Rebuilds told) :
    (s.turn told).1.engine.Heeds (s.turn told).1.settings := by
  obtain ⟨lead, houtcome⟩ := hrebuilds
  obtain ⟨watchers, hsettings⟩ := s.switches_turn told
  have hengine : (s.turn told).1.engine =
      (lead.engine.rebuild (told.inputs s.settings.store)).engine :=
    congrArg Outcome.engine houtcome
  rw [hengine, hsettings]
  exact lead.engine.heeds_rebuild s.settings told

theorem owes_update (hwatches : s.Watches) {h : Happening} (hupdate : h.isUpdate) :
    (s.next h).Owes := by
  refine .inr ?_
  rw [size_feed_update hwatches hupdate]
  omega

theorem Owes.next (hwatches : s.Watches) (howes : s.Owes) (h : Happening) :
    (s.next h).Owes ∨ ∃ told, h = .turn told ∧ s.Rebuilds told := by
  cases h with
  | setPrayers | setFlags | notify => exact .inl (owes_update hwatches rfl)
  | request | fire | setClock | signal => exact .inl howes
  | turn told =>
    rcases s.rebuilds_or_keeps told with hrebuilds | ⟨hbegun, e, phase, hsame, -⟩
    · exact .inr ⟨told, rfl, hrebuilds⟩
    · refine .inl (.inr ?_)
      rw [Session.next, perform, hsame]
      exact howes.resolve_left hbegun

theorem Owes.paid (hwatches : s.Watches) (howes : s.Owes) {hs : List Happening}
    (hidle : (s.after hs).Idle) :
    ∃ mid told rest, hs = mid ++ .turn told :: rest ∧ (s.after mid).Rebuilds told := by
  induction hs generalizing s with
  | nil => exact absurd howes hidle.not_owes
  | cons h hs ih =>
    rcases howes.next hwatches h with hstill | ⟨told, rfl, hrebuilds⟩
    · obtain ⟨mid, told, rest, rfl, hrebuilds⟩ := ih (hwatches.next h) hstill hidle
      exact ⟨h :: mid, told, rest, rfl, hrebuilds⟩
    · exact ⟨[], told, hs, rfl, hrebuilds⟩

/-- Unless a rebuild is still to come, whatever waits is allowed by the switches as they are. -/
theorem owes_or_heeds (hwatches : s.Watches) (hbefore : s.Owes ∨ s.engine.Heeds s.settings)
    (hs : List Happening) :
    (s.after hs).Owes ∨ (s.after hs).engine.Heeds (s.after hs).settings := by
  induction hs generalizing s with
  | nil => exact hbefore
  | cons h hs ih =>
    refine ih (hwatches.next h) ?_
    rcases hbefore with howes | hheeds
    · rcases howes.next hwatches h with hstill | ⟨told, rfl, hrebuilds⟩
      · exact .inl hstill
      · exact .inr hrebuilds.heeds
    · cases h with
      | setPrayers | setFlags | notify => exact .inl (owes_update hwatches rfl)
      | request | setClock | signal => exact .inr hheeds
      | fire timer =>
        refine .inr fun r hlive => hheeds r ?_
        rw [next, perform, Engine.fire] at hlive
        split at hlive <;> exact hlive
      | turn told =>
        rcases s.rebuilds_or_keeps told with hrebuilds | ⟨-, e, phase, hsame, hkept⟩
        · exact .inr hrebuilds.heeds
        · rw [next, perform, hsame]
          exact .inr fun r hlive => hheeds r (hkept r hlive)

/-- However the settings change while the loop runs, every change is followed by a rebuild before
the loop rests, so many changes as waited at a time lead to as many rebuilds, or to 65 if there were
more, and while the loop rests everything that plays is allowed. It does come to rest. -/
theorem no_update_lost (engine : Engine) (settings : MemorySettings) :
    let s := enter engine settings
    (∀ before update later, update.isUpdate → (s.after (before ++ update :: later)).Idle →
      ∃ mid told rest, later = mid ++ .turn told :: rest ∧
        (s.after (before ++ update :: mid)).Rebuilds told) ∧
    (∀ before gap later, (∀ h ∈ gap, h.isTurn = false) → (∀ h ∈ later, h.isUpdate = false) →
      (s.after (before ++ gap ++ later)).Idle →
      let waiting := (s.after before).feed.size + gap.countP Happening.isUpdate
      let changes := if waiting ≤ 64 then waiting else 65
      let actions := (s.after (before ++ gap)).actions later
      actions.countP Action.isChange = changes ∧
        actions.countP Action.isAttempt = changes + actions.countP Action.isPrompt) ∧
    (∀ hs, (s.after hs).Idle →
      ∀ r ∈ (s.after hs).engine.registry.live, r.event.kind ≠ .rollover →
        (s.after hs).settings.Allows r.event) ∧
    ∀ hs (tellings : List Telling), (s.after hs).phase ≠ .closed →
      (s.after hs).toDo ≤ tellings.length →
      ∃ k ≤ tellings.length, (s.after (hs ++ (tellings.take k).map .turn)).Idle := by
  intro s
  have hwatches : s.Watches := watches_enter engine settings
  refine ⟨?_, ?_, ?_, ?_⟩
  · intro before update later hupdate hidle
    rw [after_append, after_cons] at hidle
    have howes := owes_update (hwatches.after before) hupdate
    obtain ⟨mid, told, rest, rfl, hrebuilds⟩ :=
      howes.paid ((hwatches.after before).next update) hidle
    refine ⟨mid, told, rest, rfl, ?_⟩
    rw [after_append, after_cons]
    exact hrebuilds
  · intro before gap later hnoTurns hnoUpdates hidle waiting changes actions
    rw [after_append] at hidle
    obtain ⟨seen, hbalanced, hsize⟩ := balanced_actions (hwatches.after (before ++ gap)) hnoUpdates
    rw [hidle.feed, Nat.zero_add, after_append, size_feed_gap (hwatches.after before) hnoTurns,
      ChangeFeed.capacity] at hsize
    have hall : seen = changes := by
      simp only [changes, waiting]
      split <;> omega
    rw [hall] at hbalanced
    exact hbalanced
  · intro hs hidle
    exact (owes_or_heeds hwatches (.inl (.inl rfl)) hs).resolve_left hidle.not_owes
  · intro hs tellings hrunning henough
    obtain ⟨k, hfew, hidle⟩ := rests (hwatches.after hs) hrunning henough
    refine ⟨k, Nat.le_trans hfew henough, ?_⟩
    rw [after_append]
    exact hidle

/-- A schedule with an announcement waits while the loop rests. Then it is said 66 times that the
times have changed, and the schedule is built anew 65 times. -/
theorem no_update_lost_overflow :
    ∃ e, Engine.new {} ⟨0, .utc⟩ = .ok e ∧ ∃ before gap later,
      let s := enter e .empty
      (s.after before).Idle ∧
      (∃ r ∈ (s.after before).engine.registry.live, r.event.kind = .announcement ∧
        (s.after before).settings.Allows r.event) ∧
      gap.countP Happening.isUpdate = 66 ∧ (s.after (before ++ gap ++ later)).Idle ∧
      ((s.after (before ++ gap)).actions later).countP Action.isChange = 65 ∧
      ∃ mid told rest, later = mid ++ .turn told :: rest ∧
        (s.after (before ++ gap ++ mid)).Rebuilds told := by
  obtain ⟨e, hcreated⟩ : ∃ e, Engine.new {} ⟨0, .utc⟩ = .ok e := ⟨_, rfl⟩
  let told := Telling.daily .maghrib ⟨1080, by decide⟩
  let before := Happening.opening .maghrib told
  let update : Happening := .notify .prayerSource
  let gap := List.replicate 66 update
  let r : Registration := ⟨8, 8, .announcement .maghrib ⟨0⟩ ⟨1065, by decide⟩, ⟨63900000, .utc⟩⟩
  obtain ⟨hfollowed, hcounted, hallowed, hrests⟩ := no_update_lost e .empty
  have hstart := (Engine.new_eq hcreated).2
  have hidle : ((enter e .empty).after before).Idle := by rw [hstart]; exact ⟨by cbv, by cbv⟩
  have hsecond : ((enter e .empty).after before).engine.registry.live[1]? = some r := by
    rw [hstart]; cbv
  have hlive := List.mem_of_getElem? hsecond
  have hseen : ((enter e .empty).after before).feed.size = 0 := hidle.feed
  have hserving : ((enter e .empty).after (before ++ gap)).phase = .serving := by rw [hstart]; cbv
  have hbusy : ((enter e .empty).after (before ++ gap)).toDo = 65 := by rw [hstart]; cbv
  obtain ⟨k, -, hrest⟩ := hrests (before ++ gap) (List.replicate 65 told)
    (by rw [hserving]; decide) (by rw [hbusy, List.length_replicate])
  let later := ((List.replicate 65 told).take k).map Happening.turn
  have hnoTurns : ∀ h ∈ gap, h.isTurn = false := by
    intro h hh
    rw [List.eq_of_mem_replicate hh]
    rfl
  have hnoUpdates : ∀ h ∈ later, h.isUpdate = false := by
    intro h hh
    obtain ⟨_, -, rfl⟩ := List.mem_map.1 hh
    rfl
  have hchanges := (hcounted before gap later hnoTurns hnoUpdates hrest).1
  rw [hseen] at hchanges
  obtain ⟨mid, told', later', hsplit, hrebuilds⟩ :=
    hfollowed (before ++ List.replicate 65 update) update later rfl hrest
  exact ⟨e, hcreated, before, gap, later, hidle,
    ⟨r, hlive, rfl, hallowed before hidle r hlive (by decide)⟩, rfl, hrest, hchanges, mid, told',
    later', hsplit, hrebuilds⟩

end Session

end Muezzin
