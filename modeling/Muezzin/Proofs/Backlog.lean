import Muezzin.Proofs.Sessions
import Muezzin.Proofs.Settling

/-!
# What waits is handled, and in which order

Reports of timers come before requests, and requests before changes of the settings. Whatever waits
at some moment of a session has been handled when the loop comes to rest, the requests and the
changes in their order: a rebuild takes all reports with it, but it also settles what they claim,
and it leaves the requests and the changes alone. More may come in meanwhile, at any time.
-/

namespace Muezzin

namespace ChangeFeed

variable {feed rest : ChangeFeed} {change : SettingsChange}

theorem drain_eq_nil (hempty : feed.size = 0) : feed.drain = [] :=
  List.length_eq_zero_iff.1 (feed.length_drain.trans hempty)

theorem drain_push {feed : ChangeFeed} (hroom : feed.waiting.length < capacity)
    (change : SettingsChange) :
    (feed.push change).drain = feed.drain ++ [change] ∧
      (feed.push change).waiting.length = feed.waiting.length + 1 := by
  simp [push, drain, hroom]

theorem drain_next? (hseen : feed.next? = some (change, rest)) :
    feed.drain = change :: rest.drain ∧ rest.waiting.length ≤ feed.waiting.length := by
  unfold next? at hseen
  split at hseen
  · next hmissed =>
    cases hseen
    exact ⟨by simp [drain, hmissed], Nat.le_refl _⟩
  · next hknown =>
    split at hseen
    · cases hseen
    · next hwaiting =>
      cases hseen
      exact ⟨by simp [drain, hknown, hwaiting], by simp [hwaiting]⟩

end ChangeFeed

/-- The books are kept and nothing is in hand. -/
def Engine.Sound (e : Engine) : Prop :=
  Moment.Sound ⟨e, [], []⟩

theorem LeadsTo.sound {e : Engine} {o : Outcome} (hleads : LeadsTo e [] o) (hsound : e.Sound) :
    o.engine.Sound := by
  obtain ⟨hbooks, hproper, hknown⟩ := (hleads []).keep Moment.Step.sound hsound
  exact ⟨hbooks, hproper, hknown⟩

/-- The engine comes about by hand and in sessions, one after another. -/
inductive Engine.Arises : Engine → Prop
  | new {config : SchedulerConfig} {clock : Instant} {e : Engine}
      (hcreated : Engine.new config clock = .ok e) : Arises e
  | run {e : Engine} (harises : e.Arises) (ops : List Operation) : Arises (e.run ops).engine
  | session {e : Engine} (harises : e.Arises) (settings : MemorySettings) (hs : List Happening) :
      Arises ((Session.enter e settings).after hs).engine

namespace Session

variable {s : Session}

theorem leadsTo_turn (s : Session) (told : Telling) :
    LeadsTo s.engine [] ⟨(s.turn told).1.engine, (s.turn told).2⟩ := by
  have hturn := s.turn_turn told
  generalize s.turn told = p at hturn
  cases hturn with
  | opening | change => exact (Engine.leadsTo_rebuild _ _).cons ⟨rfl, rfl, rfl⟩
  | message _ hwaiting => exact Engine.leadsTo_handle hwaiting _
  | close =>
    have hcleared : LeadsTo s.engine [] (s.engine.clear.2.andThen fun e =>
        ⟨e, [.stopped s.engine.clear.1]⟩) :=
      (Engine.leadsTo_clear _).andThen (.note _ ⟨rfl, rfl, rfl⟩)
    exact hcleared.cons ⟨rfl, rfl, rfl⟩
  | wait => exact .rest _

theorem sound_next (hsound : s.engine.Sound) (h : Happening) : (s.next h).engine.Sound := by
  cases h with
  | setPrayers | setFlags | notify | signal => exact hsound
  | request command => exact ⟨hsound.books, hsound.proper, hsound.known⟩
  | setClock i => exact ⟨hsound.books.setClock i, hsound.proper, hsound.known⟩
  | fire timer =>
    rw [next, perform, Engine.fire]
    split
    · next hwaits => exact ⟨hsound.books.report hwaits, hsound.proper, hsound.known⟩
    · exact hsound
  | turn told => exact (s.leadsTo_turn told).sound hsound

theorem sound_after (hsound : s.engine.Sound) (hs : List Happening) :
    (s.after hs).engine.Sound := by
  induction hs generalizing s with
  | nil => exact hsound
  | cons h hs ih => exact ih (sound_next hsound h)

end Session

theorem Engine.Arises.sound {e : Engine} (harises : e.Arises) : e.Sound := by
  induction harises with
  | new hcreated => exact sound_new hcreated
  | run _ ops ih => exact (leadsTo_run _ ops).sound ih
  | session _ settings hs ih => exact Session.sound_after (s := Session.enter _ settings) ih hs

def Message.command? : Message → Option Command
  | .fire _ => none
  | .command asked => some asked

/-- The action belongs neither to a request nor to a change of the settings. -/
def Action.IsUnasked (a : Action) : Prop :=
  a.command? = none ∧ a.change? = none

namespace Engine

theorem isUnasked_rebuild (e : Engine) (inputs : Inputs) :
    ∀ a ∈ (e.rebuild inputs).actions, a.IsUnasked := by
  obtain ⟨before, later, hactions, hearly, hlate⟩ := e.actions_rebuild_attempt inputs
  intro a ha
  rw [hactions] at ha
  rcases List.mem_append.1 ha with ha | ha
  · exact ⟨(hearly a ha).command, (hearly a ha).change⟩
  · rcases List.mem_cons.1 ha with rfl | ha
    · exact ⟨rfl, rfl⟩
    · exact ⟨(hlate a ha).command, (hlate a ha).change⟩

theorem filterMap_command?_rebuild (e : Engine) (inputs : Inputs) :
    (e.rebuild inputs).actions.filterMap Action.command? = [] :=
  List.filterMap_eq_nil_iff.2 fun a ha => (e.isUnasked_rebuild inputs a ha).1

theorem commands_rebuild (e : Engine) (inputs : Inputs) :
    (e.rebuild inputs).engine.commands = e.commands :=
  (Prod.mk.inj (queues_rebuild e inputs)).2

theorem Response.takes {e : Engine} {inputs : Inputs} {message : Message} {o : Outcome}
    (hresponse : e.Response inputs message o) :
    o.actions.filterMap Action.command? = message.command?.toList ∧
      (∀ a ∈ o.actions, a.change? = none) ∧ o.engine.commands = e.commands := by
  have hafter (f : Engine) {a : Action} (hsilent : a.change? = none) :
      ∀ b ∈ a :: (f.rebuild inputs).actions, b.change? = none := by
    intro b hb
    rcases List.mem_cons.1 hb with rfl | hb
    · exact hsilent
    · exact (f.isUnasked_rebuild inputs b hb).2
  cases hresponse with
  | rest hkept hqueues haside =>
    exact ⟨List.filterMap_eq_nil_iff.2 fun a ha => (haside a ha).command,
      fun a ha => (haside a ha).change, (Prod.mk.inj hqueues).2⟩
  | @rollOver report f r now hqueues =>
    exact ⟨f.filterMap_command?_rebuild inputs, hafter f rfl,
      (f.commands_rebuild inputs).trans (Prod.mk.inj hqueues).2⟩
  | reschedule reason =>
    exact ⟨congrArg (Command.reschedule reason :: ·) (e.filterMap_command?_rebuild inputs),
      hafter e rfl, e.commands_rebuild inputs⟩
  | clear => exact ⟨rfl, by simp [Action.change?], rfl⟩

theorem mem_claimFires {r : Registration} {fires : List Fire} {registry : Registry}
    (hlive : r ∈ registry.live) (honly : ∀ g ∈ registry.live, g.fire = r.fire → g = r)
    (hreported : r.fire ∈ fires) : r ∈ (claimFires fires registry).1 := by
  induction fires generalizing registry with
  | nil => cases hreported
  | cons report fires ih =>
    rw [claimFires]
    rcases registry.takeFired_cases report with ⟨g, hg, rfl, htaken⟩ | ⟨hstale, htaken⟩
    · rw [htaken]
      by_cases hsame : g.fire = r.fire
      · exact List.mem_append_left _ (Option.mem_toList.2 (congrArg some (honly g hg hsame)))
      · have hlater := (List.mem_cons.1 hreported).resolve_left (Ne.symm hsame)
        have hother : r ≠ g := fun h => hsame (congrArg Registration.fire h.symm)
        exact List.mem_append_right _ (ih (Registry.mem_remove.2 ⟨hlive, hother⟩)
          (fun g' hg' => honly g' (Registry.mem_remove.1 hg').1) hlater)
    · rw [htaken]
      exact ih hlive honly ((List.mem_cons.1 hreported).resolve_left (hstale r hlive))

variable {e : Engine}

/-- A rebuild settles whatever has been reported. -/
theorem settles_rebuild (hbooks : e.registry.Consistent e.fires) (inputs : Inputs)
    {r : Registration} (hlive : r ∈ e.registry.live) (hreported : r.fire ∈ e.fires) :
    ∃ a ∈ (e.rebuild inputs).actions, a.settles? = some r := by
  obtain ⟨later, hactions, -⟩ := actions_rebuild e inputs
  have hclaimed : r ∈ e.claimDue.1 := by
    have htaken := mem_claimFires hlive (fun g hg hsame => hbooks.eq_of_fire_eq hg hlive hsame)
      hreported
    exact (List.mergeSort_perm _ _).mem_iff.2 (List.mem_append_left _ htaken)
  obtain ⟨d, a, hsettled, -, houtcome⟩ := settleDue_settles e.claimDue.2 inputs r
  refine ⟨a, ?_, hsettled.settles_eq⟩
  rw [hactions, deliverDue, actions_settleAll inputs (nodup_map_key_claimDue hbooks)]
  refine List.mem_append_left _ (List.mem_flatMap.2 ⟨r, hclaimed, ?_⟩)
  rw [houtcome]
  exact List.mem_singleton_self a

theorem settles_rollOver (e : Engine) (inputs : Inputs) (r : Registration) :
    ∃ a ∈ (e.rollOver inputs r).actions, a.settles? = some r := by
  by_cases hallowed : e.debounce.allows r.key e.clock.millis
  · rw [rollOver_of_allows hallowed]
    exact ⟨_, List.mem_cons_self, rfl⟩
  · rw [rollOver_of_not_allows hallowed]
    exact ⟨_, List.mem_cons_self, rfl⟩

/-- Handling a report settles what it claims; whatever else has been reported is settled too, or
goes on waiting. -/
theorem settles_or_waits {report : Fire} {fires : List Fire} (hwaiting : e.fires = report :: fires)
    (hbooks : e.registry.Consistent e.fires) (inputs : Inputs) {r : Registration}
    (hlive : r ∈ e.registry.live) (hreported : r.fire ∈ e.fires) :
    (∃ a ∈ (({ e with fires } : Engine).handleFire inputs report).actions, a.settles? = some r) ∨
      r ∈ (({ e with fires } : Engine).handleFire inputs report).engine.registry.live ∧
        r.fire ∈ (({ e with fires } : Engine).handleFire inputs report).engine.fires := by
  rw [hwaiting] at hbooks hreported
  rcases handleFire_cases { e with fires } inputs report with
    ⟨hstale, houtcome⟩ | ⟨g, hg, rfl, hcases⟩
  · rw [houtcome]
    exact .inr ⟨hlive, (List.mem_cons.1 hreported).resolve_left (hstale r hlive)⟩
  · by_cases hsame : r = g
    · subst hsame
      refine .inl ?_
      rcases hcases with ⟨-, d, a, hsettled, houtcome⟩ | ⟨hrolls, houtcome⟩
      · rw [houtcome]
        exact ⟨a, List.mem_singleton_self a, hsettled.settles_eq⟩
      · rw [houtcome]
        exact settles_rollOver _ inputs r
    · have hleft : (e.registry.remove g).Consistent fires := hbooks.claim hg
      have hkept : r ∈ (e.registry.remove g).live := Registry.mem_remove.2 ⟨hlive, hsame⟩
      have hlater : r.fire ∈ fires := (List.mem_cons.1 hreported).resolve_left fun h =>
        hsame (hbooks.eq_of_fire_eq hlive hg h)
      rcases hcases with ⟨-, d, a, hsettled, houtcome⟩ | ⟨hrolls, houtcome⟩
      · rw [houtcome]
        exact .inr ⟨hkept, hlater⟩
      · rw [houtcome]
        let f : Engine := { e with registry := e.registry.remove g, fires }
        by_cases hallowed : f.debounce.allows g.key f.clock.millis
        · rw [rollOver_of_allows hallowed]
          obtain ⟨a, hdone, hsettles⟩ := settles_rebuild
            (e := { f with debounce := f.debounce.stamp g.key f.clock.millis }) hleft inputs hkept
            hlater
          exact .inl ⟨a, List.mem_cons_of_mem _ hdone, hsettles⟩
        · rw [rollOver_of_not_allows hallowed]
          exact .inr ⟨hkept, hlater⟩

end Engine

namespace Session

variable {s : Session}

/-- While a report waits, the loop does nothing but handle reports. -/
theorem report_next (hsound : s.engine.Sound) {r : Registration}
    (hlive : r ∈ s.engine.registry.live) (hreported : r.fire ∈ s.engine.fires) (h : Happening) :
    (∀ a ∈ (s.perform h).2, a.IsUnasked) ∧
      ((∃ a ∈ (s.perform h).2, a.settles? = some r) ∨
        r ∈ (s.next h).engine.registry.live ∧ r.fire ∈ (s.next h).engine.fires) := by
  cases h with
  | setPrayers | setFlags | notify | request | setClock | signal =>
    exact ⟨List.forall_mem_nil _, .inr ⟨hlive, hreported⟩⟩
  | fire timer =>
    refine ⟨List.forall_mem_nil _, .inr ?_⟩
    rw [next, perform, Engine.fire]
    split
    · exact ⟨hlive, List.mem_append_left _ hreported⟩
    · exact ⟨hlive, hreported⟩
  | turn told =>
    have hturn := s.turn_turn told
    rw [next, perform]
    generalize s.turn told = p at hturn ⊢
    cases hturn with
    | opening =>
      obtain ⟨a, hdone, hsettles⟩ := Engine.settles_rebuild hsound.books
        (told.inputs s.settings.store) hlive hreported
      refine ⟨fun b hb => ?_, .inl ⟨a, List.mem_cons_of_mem _ hdone, hsettles⟩⟩
      rcases List.mem_cons.1 hb with rfl | hb
      · exact ⟨rfl, rfl⟩
      · exact s.engine.isUnasked_rebuild _ b hb
    | @message message rest hphase hwaiting =>
      rcases Engine.nextMessage?_cases hwaiting with
        ⟨report, fires, hfirst, rfl, rfl⟩ | ⟨_, _, hnone, -, -, -⟩
      · refine ⟨?_, Engine.settles_or_waits hfirst hsound.books _ hlive hreported⟩
        obtain ⟨hcommands, hchanges, -⟩ := (Engine.response_handle { s.engine with fires }
          (told.inputs s.settings.store) (.fire report)).takes
        exact fun a ha => ⟨List.filterMap_eq_nil_iff.1 hcommands a ha, hchanges a ha⟩
      · rw [hnone] at hreported
        cases hreported
    | change hphase hidle hwaiting =>
      rw [(Prod.mk.inj (Engine.nextMessage?_eq_none_iff.1 hidle)).1] at hreported
      cases hreported
    | close hidle =>
      rw [hidle.fires] at hreported
      cases hreported
    | wait => exact ⟨List.forall_mem_nil _, .inr ⟨hlive, hreported⟩⟩

theorem reports_handled (hsound : s.engine.Sound) {r : Registration}
    (hlive : r ∈ s.engine.registry.live) (hreported : r.fire ∈ s.engine.fires) {hs : List Happening}
    (hidle : (s.after hs).Idle) :
    ∃ early a late, s.actions hs = early ++ a :: late ∧ a.settles? = some r ∧
      ∀ b ∈ early, b.IsUnasked := by
  induction hs generalizing s with
  | nil =>
    rw [hidle.fires (s := s)] at hreported
    cases hreported
  | cons h hs ih =>
    obtain ⟨hunasked, ⟨a, hdone, hsettles⟩ | ⟨hlive', hreported'⟩⟩ :=
      report_next hsound hlive hreported h
    · obtain ⟨early, late, hsplit⟩ := List.append_of_mem hdone
      refine ⟨early, a, late ++ (s.next h).actions hs, ?_, hsettles, fun b hb => ?_⟩
      · rw [actions, hsplit, List.append_assoc, List.cons_append]
      · exact hunasked b (hsplit ▸ List.mem_append_left _ hb)
    · obtain ⟨early, a, late, hsplit, hsettles, hbefore⟩ :=
        ih (sound_next hsound h) hlive' hreported' hidle
      refine ⟨(s.perform h).2 ++ early, a, late, ?_, hsettles, fun b hb => ?_⟩
      · rw [actions, hsplit, List.append_assoc]
      · exact (List.mem_append.1 hb).elim (hunasked b) (hbefore b)

/-- While a request waits, no change is looked at, and the first request is taken up first. -/
theorem request_next {command : Command} {commands : List Command}
    (hwaiting : s.engine.commands = command :: commands) (h : Happening) :
    (∀ a ∈ (s.perform h).2, a.change? = none) ∧
      ((s.perform h).2.filterMap Action.command? = [] ∧
        (∃ new, (s.next h).engine.commands = command :: commands ++ new) ∨
      (s.perform h).2.filterMap Action.command? = [command] ∧
        (s.next h).engine.commands = commands) := by
  have hstill : ∃ new, s.engine.commands = command :: commands ++ new :=
    ⟨[], by rw [hwaiting, List.append_nil]⟩
  cases h with
  | setPrayers | setFlags | notify | setClock | signal =>
    exact ⟨List.forall_mem_nil _, .inl ⟨rfl, hstill⟩⟩
  | request new =>
    exact ⟨List.forall_mem_nil _, .inl ⟨rfl, [new], congrArg (· ++ [new]) hwaiting⟩⟩
  | fire timer =>
    refine ⟨List.forall_mem_nil _, .inl ⟨rfl, ?_⟩⟩
    rw [next, perform, Engine.fire]
    split <;> exact hstill
  | turn told =>
    have hturn := s.turn_turn told
    rw [next, perform]
    generalize s.turn told = p at hturn ⊢
    cases hturn with
    | opening =>
      refine ⟨fun a ha => ?_, .inl ⟨s.engine.filterMap_command?_rebuild _, ?_⟩⟩
      · rcases List.mem_cons.1 ha with rfl | ha
        · rfl
        · exact (s.engine.isUnasked_rebuild _ a ha).2
      · show ∃ new, (s.engine.rebuild _).engine.commands = _
        rw [s.engine.commands_rebuild]
        exact hstill
    | @message message rest hphase hnext =>
      obtain ⟨htaken, hchanges, hleft⟩ :=
        (rest.response_handle (told.inputs s.settings.store) message).takes
      refine ⟨hchanges, ?_⟩
      rcases Engine.nextMessage?_cases hnext with
        ⟨report, fires, hfirst, rfl, rfl⟩ | ⟨other, others, hnone, hfirst, rfl, rfl⟩
      · refine .inl ⟨htaken, ?_⟩
        show ∃ new, (Engine.handle _ _ (.fire report)).engine.commands = _
        rw [hleft]
        exact hstill
      · obtain ⟨rfl, rfl⟩ := List.cons.inj (hwaiting.symm.trans hfirst)
        exact .inr ⟨htaken, hleft⟩
    | change hphase hidle =>
      rw [(Prod.mk.inj (Engine.nextMessage?_eq_none_iff.1 hidle)).2] at hwaiting
      cases hwaiting
    | close hidle =>
      rw [hidle.commands] at hwaiting
      cases hwaiting
    | wait => exact ⟨List.forall_mem_nil _, .inl ⟨rfl, hstill⟩⟩

theorem requests_handled {commands more : List Command}
    (hwaiting : s.engine.commands = commands ++ more) {hs : List Happening}
    (hidle : (s.after hs).Idle) :
    ∃ early late, s.actions hs = early ++ late ∧ early.filterMap Action.command? = commands ∧
      ∀ a ∈ early, a.change? = none := by
  induction hs generalizing s commands more with
  | nil =>
    rw [hidle.commands (s := s)] at hwaiting
    exact ⟨[], [], rfl, (List.append_eq_nil_iff.1 hwaiting.symm).1.symm, List.forall_mem_nil _⟩
  | cons h hs ih =>
    cases commands with
    | nil => exact ⟨[], _, rfl, rfl, List.forall_mem_nil _⟩
    | cons command commands =>
      have hfirst : s.engine.commands = command :: (commands ++ more) := hwaiting
      obtain ⟨hunseen, ⟨hnone, new, hlater⟩ | ⟨htaken, hlater⟩⟩ := request_next hfirst h
      · rw [← List.cons_append, List.append_assoc] at hlater
        obtain ⟨early, late, hsplit, hhandled, hchanges⟩ := ih hlater hidle
        refine ⟨(s.perform h).2 ++ early, late, ?_, ?_, fun a ha => ?_⟩
        · rw [actions, hsplit, List.append_assoc]
        · rw [List.filterMap_append, hnone, hhandled, List.nil_append]
        · exact (List.mem_append.1 ha).elim (hunseen a) (hchanges a)
      · obtain ⟨early, late, hsplit, hhandled, hchanges⟩ := ih hlater hidle
        refine ⟨(s.perform h).2 ++ early, late, ?_, ?_, fun a ha => ?_⟩
        · rw [actions, hsplit, List.append_assoc]
        · rw [List.filterMap_append, htaken, hhandled, List.singleton_append]
        · exact (List.mem_append.1 ha).elim (hunseen a) (hchanges a)

theorem change_next (hwatches : s.Watches) {h : Happening} (hnoUpdate : h.isUpdate = false) :
    s.feed.drain = (s.perform h).2.filterMap Action.change? ++ (s.next h).feed.drain ∧
      (s.next h).feed.waiting.length ≤ s.feed.waiting.length := by
  cases hturn : h.isTurn with
  | false =>
    obtain ⟨hsilent, hfeed⟩ := feed_next hnoUpdate hturn
    rw [hsilent, hfeed]
    exact ⟨rfl, Nat.le_refl _⟩
  | true =>
    cases h with
    | turn told =>
      have hturn := s.turn_turn told
      have hunseen (inputs : Inputs) :
          (s.engine.rebuild inputs).actions.filterMap Action.change? = [] :=
        List.filterMap_eq_nil_iff.2 fun a ha => (s.engine.isUnasked_rebuild inputs a ha).2
      rw [next, perform]
      generalize s.turn told = p at hturn ⊢
      cases hturn with
      | opening =>
        rw [List.filterMap_cons, hunseen]
        exact ⟨rfl, Nat.le_refl _⟩
      | @message message rest =>
        obtain ⟨-, hchanges, -⟩ :=
          (rest.response_handle (told.inputs s.settings.store) message).takes
        rw [List.filterMap_eq_nil_iff.2 hchanges]
        exact ⟨rfl, Nat.le_refl _⟩
      | change hphase hidle hseen =>
        rw [List.filterMap_cons, hunseen, feed_resume hwatches]
        exact ChangeFeed.drain_next? hseen
      | close | wait => exact ⟨rfl, Nat.le_refl _⟩
    | _ => cases hturn

/-- No change is lost as long as there is room for all of them. -/
theorem changes_handled (hwatches : s.Watches) {hs : List Happening}
    (hroom : s.feed.waiting.length + hs.countP Happening.isUpdate ≤ ChangeFeed.capacity)
    (hidle : (s.after hs).Idle) : s.feed.drain <+: (s.actions hs).filterMap Action.change? := by
  induction hs generalizing s with
  | nil =>
    rw [ChangeFeed.drain_eq_nil (hidle.feed (s := s))]
    exact List.nil_prefix
  | cons h hs ih =>
    rw [List.countP_cons] at hroom
    cases hupdate : h.isUpdate with
    | true =>
      rw [hupdate, if_pos rfl] at hroom
      obtain ⟨hsilent, change, hfeed⟩ := feed_update hwatches hupdate
      have hspace : s.feed.waiting.length < ChangeFeed.capacity := by omega
      obtain ⟨hdrain, hlength⟩ := ChangeFeed.drain_push hspace change
      obtain ⟨later, hseen⟩ := ih (hwatches.next h) (by rw [hfeed, hlength]; omega) hidle
      refine ⟨change :: later, ?_⟩
      rw [hfeed, hdrain, List.append_assoc, List.singleton_append] at hseen
      rw [actions, hsilent, List.nil_append, hseen]
    | false =>
      rw [hupdate, if_neg Bool.false_ne_true] at hroom
      obtain ⟨hdrain, hlength⟩ := change_next hwatches hupdate
      obtain ⟨later, hseen⟩ := ih (hwatches.next h) (by omega) hidle
      refine ⟨later, ?_⟩
      rw [actions, List.filterMap_append, hdrain, List.append_assoc, hseen]

/-- Everything that waits is handled in what happens: first whatever the reports claim, then the
requests, then the changes, unless so many more come in that some get lost. -/
structure HandlesBacklog (s : Session) (hs : List Happening) : Prop where
  reports : ∀ r ∈ s.engine.registry.live, r.fire ∈ s.engine.fires →
    ∃ early a late, s.actions hs = early ++ a :: late ∧ a.settles? = some r ∧
      ∀ b ∈ early, b.command? = none ∧ b.change? = none
  requests : ∃ early late, s.actions hs = early ++ late ∧
    early.filterMap Action.command? = s.engine.commands ∧ ∀ a ∈ early, a.change? = none
  changes : s.feed.waiting.length + hs.countP Happening.isUpdate ≤ ChangeFeed.capacity →
    s.feed.drain <+: (s.actions hs).filterMap Action.change?

theorem Idle.handlesBacklog (hwatches : s.Watches) (hsound : s.engine.Sound) {hs : List Happening}
    (hidle : (s.after hs).Idle) : s.HandlesBacklog hs where
  reports _ hlive hreported := reports_handled hsound hlive hreported hidle
  requests := requests_handled (List.append_nil _).symm hidle
  changes hroom := changes_handled hwatches hroom hidle

end Session

end Muezzin
