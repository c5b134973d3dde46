import Muezzin.Proofs.Replacement
import Muezzin.Rehearsal.Live

/-!
# Sessions of the loop

A session is the loop from the moment when it begins to watch the settings until it has ended. While
it runs, anything may happen between two of its turns, in any order and any number of times: the
settings and the switches change, requests come in, timers fire, the clock is set, the signal to
stop arrives. A turn builds the first schedule, or handles one message, or sees that nothing is left
to do and stops if it was told to. The source of the prayer times may give a different answer in
every turn, and reading the settings may fail in any of them.
-/

namespace Muezzin

/-- What is told in a turn: times from anywhere, and the settings unless reading them fails. -/
structure Telling where
  source : PrayerSource
  settingsFault : Option Error := none
  flagsFault : Option Error := none
  /-- The faults of the two reads when the announcement for a prayer is checked. -/
  recheckFaults : Prayer → Option Error × Option Error := fun _ => (settingsFault, flagsFault)

def Telling.inputs (told : Telling) (store : SettingsStore) : Inputs where
  toPrayerSource := told.source
  settings := Rehearsal.orFault told.settingsFault store.settings
  flags := Rehearsal.orFault told.flagsFault store.flags
  recheck := fun p =>
    { settings := Rehearsal.orFault (told.recheckFaults p).1 store.settings
      flags := Rehearsal.orFault (told.recheckFaults p).2 store.flags }

def Telling.daily (p : Prayer) (time : TimeOfDay) : Telling where
  source := { times := (Inputs.daily p time).times }

/-- A timer that waits fires, whichever it is and whatever the clock says. -/
def Engine.fire (e : Engine) (timer : Timer Fire) : Engine :=
  if timer ∈ e.timers.pending then
    { e with
      registry := e.registry.withTimers (e.timers.cancel timer.id)
      fires := e.fires ++ [timer.payload] }
  else e

inductive Phase where
  /-- The settings are watched, and the first schedule has yet to be built. -/
  | opening
  | serving
  | closed
  deriving DecidableEq, Repr

structure Session where
  engine : Engine
  settings : MemorySettings
  /-- The number of the loop among those who watch the settings. -/
  watcher : Nat
  phase : Phase := .opening
  signalled : Bool := false

inductive Happening where
  | setPrayers (settings : PrayerSettings)
  | setFlags (flags : FeatureFlags)
  /-- Whoever watches the settings is told of a change, without any. -/
  | notify (change : SettingsChange)
  | request (command : Command)
  | fire (timer : Timer Fire)
  | setClock (i : Instant)
  | signal
  | turn (told : Telling)

namespace Happening

def isUpdate : Happening → Bool
  | setPrayers _ => true
  | setFlags _ => true
  | notify _ => true
  | _ => false

def isTurn : Happening → Bool
  | turn _ => true
  | _ => false

def opening (p : Prayer) (told : Telling) : List Happening :=
  [setFlags ⟨true, true⟩, setPrayers (PrayerTable.empty.insert p .allEnabled),
    turn told, turn told, turn told]

end Happening

namespace Action

def change? : Action → Option SettingsChange
  | changed change => some change
  | _ => none

def command? : Action → Option Command
  | rescheduling reason => some (.reschedule reason)
  | cleared _ => some .clear
  | _ => none

def isChange (a : Action) : Bool :=
  a.change?.isSome

def isPrompt : Action → Bool
  | started => true
  | rescheduling _ => true
  | rolledOver _ _ => true
  | _ => false

/-- A rebuild has settled and cancelled what there was, and asks for its inputs. -/
def isAttempt : Action → Bool
  | loading _ => true
  | _ => false

def isStop : Action → Bool
  | stopped _ => true
  | _ => false

/-- The action neither begins a rebuild nor is a reason for one, takes no request up, and the loop
goes on. -/
structure IsAside (a : Action) : Prop where
  change : a.change? = none := by rfl
  command : a.command? = none := by rfl
  prompt : a.isPrompt = false := by rfl
  attempt : a.isAttempt = false := by rfl
  stop : a.isStop = false := by rfl

end Action

theorem Settlement.isAside {e : Engine} {inputs : Inputs} {r : Registration} {d : Debounce Int}
    {a : Action} (hsettled : Settlement e inputs r d a)
    (hquiet : r.event.kind = .rollover → ∀ now, a ≠ .rolledOver r now) : a.IsAside := by
  cases hsettled with
  | rolledOver hrolls => exact absurd rfl (hquiet hrolls _)
  | handedOff | unvoiced | suppressed | withdrawn | ignored | superseded => exact {}

namespace Engine

/-- A rebuild attempts once, and everything else that it does is aside. -/
theorem actions_rebuild_attempt (e : Engine) (inputs : Inputs) :
    ∃ before later, (e.rebuild inputs).actions = before ++ .loading e.clock.date :: later ∧
      (∀ a ∈ before, a.IsAside) ∧ ∀ a ∈ later, a.IsAside := by
  have hpartings : ∀ a ∈ e.partings inputs, a.IsAside := by
    intro a ha
    rcases List.mem_append.1 ha with ha | ha
    · obtain ⟨r, -, f, d, hsettled, hreplaced⟩ := (settleAll_spec inputs _ _).2 a ha
      refine hsettled.isAside fun hrolls now hsame => ?_
      rw [hreplaced hrolls] at hsame
      cases hsame
    · rw [List.mem_singleton.1 ha]
      exact {}
  have hmisread : ∀ a ∈ (inputs.complaints e.clock.date).map Action.misread, a.IsAside := by
    intro a ha
    obtain ⟨complaint, -, rfl⟩ := List.mem_map.1 ha
    exact {}
  cases hloaded : inputs.load e.clock.date with
  | ok day =>
    obtain ⟨gs, -, houtcome⟩ := rebuild_of_load hloaded
    rw [houtcome]
    refine ⟨e.partings inputs, _, rfl, hpartings, fun a ha => ?_⟩
    rcases List.mem_append.1 ha with ha | ha
    · exact hmisread a ha
    · simp only [DayInputs.remarks, List.mem_append, List.mem_map, List.mem_singleton] at ha
      rcases ha with ((⟨p, -, rfl⟩ | ⟨ev, -, rfl⟩) | ⟨g, -, rfl⟩) | rfl
      all_goals exact {}
  | error reason =>
    rw [rebuild_of_error hloaded]
    refine ⟨e.partings inputs, _, rfl, hpartings, fun a ha => ?_⟩
    rcases List.mem_append.1 ha with ha | ha
    · exact hmisread a ha
    · rw [List.mem_singleton.1 ha]
      exact {}

/-- What handling a message comes to: at most one rebuild, at the end and for a reason. -/
inductive Response (e : Engine) (inputs : Inputs) : Message → Outcome → Prop
  | rest {report : Fire} {o : Outcome} (hkept : ∀ r ∈ o.engine.registry.live, r ∈ e.registry.live)
      (hqueues : o.engine.queues = e.queues) (haside : ∀ a ∈ o.actions, a.IsAside) :
      Response e inputs (.fire report) o
  | rollOver {report : Fire} {f : Engine} {r : Registration} {now : Instant}
      (hqueues : f.queues = e.queues) :
      Response e inputs (.fire report)
        ((⟨f, [.rolledOver r now]⟩ : Outcome).andThen (Engine.rebuild · inputs))
  | reschedule (reason : String) :
      Response e inputs (.command (.reschedule reason))
        ((⟨e, [.rescheduling reason]⟩ : Outcome).andThen (Engine.rebuild · inputs))
  | clear :
      Response e inputs (.command .clear)
        ⟨e.clear.2.engine, [.cancelled e.registry.listing, .cleared e.registry.listing.length]⟩

theorem response_handleFire (e : Engine) (inputs : Inputs) (report : Fire) :
    e.Response inputs (.fire report) (e.handleFire inputs report) := by
  rcases handleFire_cases e inputs report with
    ⟨-, houtcome⟩ | ⟨r, -, -, ⟨hplays, d, a, hsettled, houtcome⟩ | ⟨hrolls, houtcome⟩⟩
  · rw [houtcome]
    refine .rest (fun _ hlive => hlive) rfl fun a ha => ?_
    rw [List.mem_singleton.1 ha]
    exact {}
  · rw [houtcome]
    refine .rest (fun _ hlive => (Registry.mem_remove.1 hlive).1) rfl fun b hb => ?_
    rw [List.mem_singleton.1 hb]
    exact hsettled.isAside fun hrolls => absurd hrolls hplays
  · rw [houtcome]
    let f : Engine := { e with registry := e.registry.remove r }
    by_cases hallowed : f.debounce.allows r.key f.clock.millis
    · rw [rollOver_of_allows hallowed]
      exact .rollOver rfl
    · rw [rollOver_of_not_allows hallowed]
      refine .rest (fun _ hlive => (Registry.mem_remove.1 hlive).1) rfl fun b hb => ?_
      rw [List.mem_singleton.1 hb]
      exact {}

theorem response_handle (e : Engine) (inputs : Inputs) (message : Message) :
    e.Response inputs message (e.handle inputs message) := by
  cases message with
  | fire report => exact response_handleFire e inputs report
  | command command =>
    cases command with
    | reschedule reason => exact .reschedule reason
    | clear => exact .clear

end Engine

theorem ChangeFeed.next?_eq_none_iff {feed : ChangeFeed} : feed.next? = none ↔ feed.size = 0 := by
  constructor
  · intro hnothing
    unfold next? at hnothing
    split at hnothing
    · cases hnothing
    · next hseen =>
      split at hnothing
      · next hempty => simp [size, hempty, hseen]
      · cases hnothing
  · intro hempty
    cases hwaiting : feed.next? with
    | none => rfl
    | some p =>
      obtain ⟨change, rest⟩ := p
      have := size_next? hwaiting
      omega

theorem ChangeFeed.length_drain (feed : ChangeFeed) : feed.drain.length = feed.size := by
  cases hmissed : feed.missed <;> simp [drain, size, hmissed]

theorem Engine.nextMessage?_eq_none_iff {e : Engine} :
    e.nextMessage? = none ↔ e.queues = ([], []) := by
  unfold nextMessage? queues
  cases e.fires <;> cases e.commands <;> simp

theorem Engine.nextMessage?_cases {e rest : Engine} {message : Message}
    (hwaiting : e.nextMessage? = some (message, rest)) :
    (∃ report fires, e.fires = report :: fires ∧ message = .fire report ∧
      rest = { e with fires }) ∨
    ∃ command commands, e.fires = [] ∧ e.commands = command :: commands ∧
      message = .command command ∧ rest = { e with commands } := by
  unfold nextMessage? at hwaiting
  split at hwaiting
  · next report fires hfires =>
    cases hwaiting
    exact .inl ⟨report, fires, hfires, rfl, rfl⟩
  · next command commands hfires hcommands =>
    cases hwaiting
    exact .inr ⟨command, commands, hfires, hcommands, rfl, rfl⟩
  · cases hwaiting

namespace Loop

theorem turn?_cases {l next : Loop} {inputs : Inputs} {actions : List Action}
    (hacted : l.turn? inputs = some (next, actions)) :
    (∃ message rest, l.engine.nextMessage? = some (message, rest) ∧
      next = { l with engine := (rest.handle inputs message).engine } ∧
      actions = (rest.handle inputs message).actions) ∨
    ∃ change feed, l.engine.nextMessage? = none ∧ l.feed.next? = some (change, feed) ∧
      next = ⟨(l.engine.rebuild inputs).engine, feed⟩ ∧
      actions = .changed change :: (l.engine.rebuild inputs).actions := by
  unfold turn? at hacted
  split at hacted
  · next message rest hwaiting =>
    cases hacted
    exact .inl ⟨message, rest, hwaiting, rfl, rfl⟩
  · next hidle =>
    split at hacted
    · next change feed hwaiting =>
      cases hacted
      exact .inr ⟨change, feed, hidle, hwaiting, rfl, rfl⟩
    · cases hacted

theorem turn?_eq_none_iff {l : Loop} {inputs : Inputs} :
    l.turn? inputs = none ↔ l.waiting = 0 := by
  constructor
  · intro hstill
    unfold turn? at hstill
    split at hstill
    · cases hstill
    · next hidle =>
      split at hstill
      · cases hstill
      · next hseen =>
        have hqueues := Engine.nextMessage?_eq_none_iff.1 hidle
        simp only [Engine.queues, Prod.mk.injEq] at hqueues
        simp [waiting, Engine.queued, hqueues, ChangeFeed.next?_eq_none_iff.1 hseen]
  · intro hnothing
    cases hacted : l.turn? inputs with
    | none => rfl
    | some p =>
      obtain ⟨next, actions⟩ := p
      have := waiting_turn?_lt hacted
      omega

theorem settle_of_none {l : Loop} {inputs : Inputs} (hstill : l.turn? inputs = none) :
    l.settle inputs = (l, []) := by
  rw [settle]
  split
  · rfl
  · next hacted =>
    rw [hstill] at hacted
    cases hacted

theorem settle_of_some {l next : Loop} {inputs : Inputs} {actions : List Action}
    (hacted : l.turn? inputs = some (next, actions)) :
    l.settle inputs = ((next.settle inputs).1, actions ++ (next.settle inputs).2) := by
  rw [settle]
  split
  · next hstill =>
    rw [hacted] at hstill
    cases hstill
  · next other more hacted' =>
    rw [hacted] at hacted'
    cases hacted'
    rfl

theorem stop_of_some {l next : Loop} {inputs : Inputs} {actions : List Action}
    (hacted : l.turn? inputs = some (next, actions)) :
    l.stop inputs = ((next.stop inputs).1, actions ++ (next.stop inputs).2) := by
  simp only [stop, settle_of_some hacted, List.append_assoc]

end Loop

namespace Session

def enter (engine : Engine) (settings : MemorySettings) : Session :=
  { engine, settings := settings.watch.2, watcher := settings.watch.1 }

def feed (s : Session) : ChangeFeed :=
  s.settings.watchers.getD s.watcher .empty

def loop (s : Session) : Loop :=
  ⟨s.engine, s.feed⟩

def resume (s : Session) (l : Loop) : Session :=
  { s with
    engine := l.engine
    settings := { s.settings with watchers := s.settings.watchers.set s.watcher l.feed } }

def turn (s : Session) (told : Telling) : Session × List Action :=
  let inputs := told.inputs s.settings.store
  match s.phase with
  | .opening =>
    let (l, actions) := Loop.start s.engine inputs
    ({ s with engine := l.engine, phase := .serving }, actions)
  | .serving =>
    match s.loop.turn? inputs with
    | some (l, actions) => (s.resume l, actions)
    | none =>
      if s.signalled then
        let (l, actions) := s.loop.stop inputs
        ({ s.resume l with phase := .closed }, actions)
      else (s, [])
  | .closed => (s, [])

def perform (s : Session) : Happening → Session × List Action
  | .setPrayers settings => ({ s with settings := s.settings.setPrayers settings }, [])
  | .setFlags flags => ({ s with settings := s.settings.setFlags flags }, [])
  | .notify change => ({ s with settings := s.settings.announce change }, [])
  | .request command => ({ s with engine := s.engine.request command }, [])
  | .fire timer => ({ s with engine := s.engine.fire timer }, [])
  | .setClock i => ({ s with engine := s.engine.setClock i }, [])
  | .signal => ({ s with signalled := true }, [])
  | .turn told => s.turn told

def next (s : Session) (h : Happening) : Session :=
  (s.perform h).1

def after (s : Session) (hs : List Happening) : Session :=
  hs.foldl next s

def actions (s : Session) : List Happening → List Action
  | [] => []
  | h :: hs => (s.perform h).2 ++ (s.next h).actions hs

theorem after_cons (s : Session) (h : Happening) (hs : List Happening) :
    s.after (h :: hs) = (s.next h).after hs := rfl

theorem after_append (s : Session) (before later : List Happening) :
    s.after (before ++ later) = (s.after before).after later :=
  List.foldl_append

theorem actions_append (s : Session) (before later : List Happening) :
    s.actions (before ++ later) = s.actions before ++ (s.after before).actions later := by
  induction before generalizing s with
  | nil => rfl
  | cons h before ih => rw [List.cons_append, actions, actions, ih, List.append_assoc]; rfl

/-- Nothing is left for the loop to do until something happens. -/
def Idle (s : Session) : Prop :=
  s.phase = .serving ∧ s.loop.waiting = 0

/-- Only the engine changes if the feed is kept. -/
theorem resume_feed (s : Session) (e : Engine) : s.resume ⟨e, s.feed⟩ = { s with engine := e } := by
  have hsame : s.settings.watchers.set s.watcher s.feed = s.settings.watchers := by
    rw [feed, List.getD_eq_getElem?_getD]
    apply List.ext_getElem?
    intro i
    by_cases hhere : s.watcher = i
    · subst hhere
      by_cases hinside : s.watcher < s.settings.watchers.length
      · simp [hinside]
      · simp [hinside]
    · rw [List.getElem?_set_ne hhere]
  rw [resume, hsame]

inductive Turn (s : Session) (told : Telling) : Session × List Action → Prop
  | opening (hphase : s.phase = .opening) :
      Turn s told
        ({ s with
            engine := (s.engine.rebuild (told.inputs s.settings.store)).engine
            phase := .serving },
          .started :: (s.engine.rebuild (told.inputs s.settings.store)).actions)
  | message {message : Message} {rest : Engine} (hphase : s.phase = .serving)
      (hwaiting : s.engine.nextMessage? = some (message, rest)) :
      Turn s told
        ({ s with engine := (rest.handle (told.inputs s.settings.store) message).engine },
          (rest.handle (told.inputs s.settings.store) message).actions)
  | change {change : SettingsChange} {feed : ChangeFeed} (hphase : s.phase = .serving)
      (hidle : s.engine.nextMessage? = none) (hwaiting : s.feed.next? = some (change, feed)) :
      Turn s told
        (s.resume ⟨(s.engine.rebuild (told.inputs s.settings.store)).engine, feed⟩,
          .changed change :: (s.engine.rebuild (told.inputs s.settings.store)).actions)
  | close (hidle : s.Idle) (hsignalled : s.signalled = true) :
      Turn s told
        ({ s with engine := s.engine.clear.2.engine, phase := .closed },
          [.signalled, .cancelled s.engine.registry.listing, .stopped s.engine.clear.1])
  | wait (hbegun : s.phase ≠ .opening) (hidle : s.phase = .serving → s.Idle ∧ s.signalled = false) :
      Turn s told (s, [])

theorem turn_turn (s : Session) (told : Telling) : s.Turn told (s.turn told) := by
  cases hphase : s.phase with
  | opening =>
    simp only [turn, hphase]
    exact .opening hphase
  | serving =>
    simp only [turn, hphase]
    cases hacted : s.loop.turn? (told.inputs s.settings.store) with
    | some p =>
      obtain ⟨l, actions⟩ := p
      rcases Loop.turn?_cases hacted with
        ⟨message, rest, hwaiting, rfl, rfl⟩ | ⟨change, feed, hidle, hwaiting, rfl, rfl⟩
      · show s.Turn told (s.resume ⟨_, s.feed⟩, _)
        rw [resume_feed]
        exact .message hphase hwaiting
      · exact .change hphase hidle hwaiting
    | none =>
      have hidle : s.Idle := ⟨hphase, Loop.turn?_eq_none_iff.1 hacted⟩
      by_cases hsignalled : s.signalled = true
      · have hstopped : s.loop.stop (told.inputs s.settings.store) =
            (⟨s.engine.clear.2.engine, s.feed⟩,
              [.signalled, .cancelled s.engine.registry.listing, .stopped s.engine.clear.1]) := by
          rw [Loop.stop, Loop.settle_of_none hacted]
          rfl
        simp only [if_pos hsignalled, hstopped, resume_feed]
        exact .close hidle hsignalled
      · simp only [if_neg hsignalled]
        exact .wait (by rw [hphase]; decide) fun _ => ⟨hidle, Bool.eq_false_iff.2 hsignalled⟩
  | closed =>
    simp only [turn, hphase]
    refine .wait (by rw [hphase]; decide) fun hserving => ?_
    rw [hphase] at hserving
    cases hserving

def Watches (s : Session) : Prop :=
  s.watcher < s.settings.watchers.length

theorem watches_enter (engine : Engine) (settings : MemorySettings) :
    (enter engine settings).Watches := by
  simp [Watches, enter, MemorySettings.watch]

theorem loop_resume {s : Session} (hwatches : s.Watches) (l : Loop) : (s.resume l).loop = l := by
  have hseen : (s.settings.watchers.set s.watcher l.feed).getD s.watcher .empty = l.feed := by
    rw [List.getD_eq_getElem?_getD, List.getElem?_set_self hwatches]
    rfl
  show (⟨l.engine, _⟩ : Loop) = l
  rw [feed]
  exact congrArg (Loop.mk l.engine) hseen

theorem resume_resume (s : Session) (l m : Loop) : (s.resume l).resume m = s.resume m := by
  simp only [resume, List.set_set]

theorem resume_loop (s : Session) : s.resume s.loop = s :=
  s.resume_feed s.engine

theorem Watches.resume {s : Session} (hwatches : s.Watches) (l : Loop) : (s.resume l).Watches := by
  rw [Watches, Session.resume, List.length_set]
  exact hwatches

theorem Watches.next {s : Session} (hwatches : s.Watches) (h : Happening) : (s.next h).Watches := by
  have htold (m : MemorySettings) (hsame : m.watchers.length = s.settings.watchers.length) :
      ({ s with settings := m } : Session).Watches := by
    rw [Watches, hsame]
    exact hwatches
  cases h with
  | setPrayers settings => exact htold _ (List.length_map _)
  | setFlags flags => exact htold _ (List.length_map _)
  | notify change => exact htold _ (List.length_map _)
  | request | fire | setClock | signal => exact hwatches
  | turn told =>
    have hturn := s.turn_turn told
    rw [Session.next, perform]
    generalize s.turn told = p at hturn
    cases hturn with
    | change => exact hwatches.resume _
    | opening | message | close | wait => exact hwatches

theorem Watches.after {s : Session} (hwatches : s.Watches) (hs : List Happening) :
    (s.after hs).Watches := by
  induction hs generalizing s with
  | nil => exact hwatches
  | cons h hs ih => exact ih (hwatches.next h)

theorem feed_resume {s : Session} (hwatches : s.Watches) (l : Loop) : (s.resume l).feed = l.feed :=
  congrArg Loop.feed (loop_resume hwatches l)

theorem feed_announce {s : Session} (hwatches : s.Watches) (change : SettingsChange) :
    ({ s with settings := s.settings.announce change } : Session).feed = s.feed.push change := by
  have hwatching : s.watcher < (s.settings.watchers.map (·.push change)).length := by
    rw [List.length_map]
    exact hwatches
  show (s.settings.watchers.map (·.push change)).getD s.watcher .empty =
    (s.settings.watchers.getD s.watcher .empty).push change
  rw [List.getD_eq_getElem _ _ hwatching, List.getElem_map, List.getD_eq_getElem]

theorem feed_update {s : Session} (hwatches : s.Watches) {h : Happening} (hupdate : h.isUpdate) :
    (s.perform h).2 = [] ∧ ∃ change, (s.next h).feed = s.feed.push change := by
  have hpushed := feed_announce hwatches
  cases h with
  | setPrayers settings => exact ⟨rfl, .prayerSettings, hpushed .prayerSettings⟩
  | setFlags flags => exact ⟨rfl, .featureFlags, hpushed .featureFlags⟩
  | notify change => exact ⟨rfl, change, hpushed change⟩
  | request | fire | setClock | signal | turn => cases hupdate

theorem feed_next {s : Session} {h : Happening} (hnoUpdate : h.isUpdate = false)
    (hnoTurn : h.isTurn = false) : (s.perform h).2 = [] ∧ (s.next h).feed = s.feed := by
  cases h with
  | setPrayers | setFlags | notify => cases hnoUpdate
  | turn => cases hnoTurn
  | request | fire | setClock | signal => exact ⟨rfl, rfl⟩

theorem Idle.feed {s : Session} (hidle : s.Idle) : s.feed.size = 0 :=
  Nat.eq_zero_of_add_eq_zero_left hidle.2

theorem Idle.fires {s : Session} (hidle : s.Idle) : s.engine.fires = [] :=
  List.length_eq_zero_iff.1
    (Nat.eq_zero_of_add_eq_zero_right (Nat.eq_zero_of_add_eq_zero_right hidle.2))

theorem Idle.commands {s : Session} (hidle : s.Idle) : s.engine.commands = [] :=
  List.length_eq_zero_iff.1
    (Nat.eq_zero_of_add_eq_zero_left (Nat.eq_zero_of_add_eq_zero_right hidle.2))

theorem idle_of_queues {s : Session} (hserving : s.phase = .serving)
    (hqueues : s.engine.queues = ([], [])) (hseen : s.feed.size = 0) : s.Idle := by
  obtain ⟨hfires, hcommands⟩ := Prod.mk.inj hqueues
  refine ⟨hserving, ?_⟩
  show s.engine.queued + s.feed.size = 0
  rw [Engine.queued, hfires, hcommands, hseen]
  rfl

theorem Idle.nextMessage? {s : Session} (hidle : s.Idle) : s.engine.nextMessage? = none :=
  Engine.nextMessage?_eq_none_iff.2 (by rw [Engine.queues, hidle.fires, hidle.commands])

theorem Idle.still {s : Session} (hidle : s.Idle) (inputs : Inputs) : s.loop.turn? inputs = none :=
  Loop.turn?_eq_none_iff.2 hidle.2

theorem turn_of_serving {s : Session} (hphase : s.phase = .serving) {told : Telling} {l : Loop}
    {actions : List Action}
    (hacted : s.loop.turn? (told.inputs s.settings.store) = some (l, actions)) :
    s.turn told = (s.resume l, actions) := by
  simp only [turn, hphase, hacted]

theorem turn_of_idle {s : Session} (hidle : s.Idle) (hquiet : s.signalled = false)
    (told : Telling) : s.turn told = (s, []) := by
  simp only [turn, hidle.1, hidle.still, hquiet, Bool.false_eq_true, if_false]

theorem turn_of_signalled {s : Session} (hidle : s.Idle) (hsignalled : s.signalled = true)
    (told : Telling) :
    s.turn told =
      ({ s.resume (s.loop.stop (told.inputs s.settings.store)).1 with phase := .closed },
        (s.loop.stop (told.inputs s.settings.store)).2) := by
  simp only [turn, hidle.1, hidle.still, if_pos hsignalled]

/-- How many turns it takes at most to come to rest. -/
def toDo (s : Session) : Nat :=
  s.loop.waiting + if s.phase = .opening then 1 else 0

theorem turn_of_busy {s : Session} (hwatches : s.Watches) (hrunning : s.phase ≠ .closed)
    (hbusy : ¬ s.Idle) (told : Telling) :
    (s.turn told).1.phase = .serving ∧ (s.turn told).1.toDo < s.toDo := by
  cases hphase : s.phase with
  | closed => exact absurd hphase hrunning
  | opening =>
    have hfewer := s.engine.queued_rebuild_le (told.inputs s.settings.store)
    simp only [turn, hphase, toDo, loop, feed, Loop.waiting, Loop.start, if_true, reduceCtorEq,
      if_false, true_and]
    omega
  | serving =>
    cases hacted : s.loop.turn? (told.inputs s.settings.store) with
    | none => exact absurd ⟨hphase, Loop.turn?_eq_none_iff.1 hacted⟩ hbusy
    | some p =>
      obtain ⟨l, actions⟩ := p
      have hfewer := Loop.waiting_turn?_lt hacted
      rw [turn_of_serving hphase hacted]
      refine ⟨hphase, ?_⟩
      have hserving : (s.resume l).phase = .serving := hphase
      rw [toDo, toDo, loop_resume hwatches, hserving, hphase]
      exact Nat.add_lt_add_right hfewer _

/-- The loop comes to rest as long as it is given turns, whatever it is told in them. -/
theorem rests {s : Session} (hwatches : s.Watches) (hrunning : s.phase ≠ .closed)
    {tellings : List Telling} (henough : s.toDo ≤ tellings.length) :
    ∃ k ≤ s.toDo, (s.after ((tellings.take k).map .turn)).Idle := by
  induction tellings generalizing s with
  | nil =>
    have hdone : s.toDo = 0 := Nat.le_zero.1 henough
    cases hphase : s.phase with
    | closed => exact absurd hphase hrunning
    | opening => simp [toDo, hphase] at hdone
    | serving => exact ⟨0, Nat.zero_le _, hphase, Nat.eq_zero_of_add_eq_zero_right hdone⟩
  | cons told tellings ih =>
    by_cases hidle : s.Idle
    · exact ⟨0, Nat.zero_le _, hidle⟩
    · obtain ⟨hserving, hfewer⟩ := turn_of_busy hwatches hrunning hidle told
      rw [List.length_cons] at henough
      obtain ⟨k, hfew, hrest⟩ := ih (hwatches.next (.turn told))
        (by rw [Session.next, perform, hserving]; decide)
        (by rw [Session.next, perform]; omega)
      rw [Session.next, perform] at hfew
      exact ⟨k + 1, by omega, hrest⟩

theorem turn_of_closed {s : Session} (hphase : s.phase = .closed) (told : Telling) :
    s.turn told = (s, []) := by
  simp only [turn, hphase]

theorem turns_of_closed {s : Session} (hphase : s.phase = .closed) (told : Telling) (n : Nat) :
    s.after (List.replicate n (.turn told)) = s ∧
      s.actions (List.replicate n (.turn told)) = [] := by
  induction n with
  | zero => exact ⟨rfl, rfl⟩
  | succ n ih =>
    rw [List.replicate_succ, after_cons, actions, next, perform, turn_of_closed hphase]
    exact ih

/-- Turn by turn the loop does what it does until nothing waits. -/
theorem after_turns_settle {s : Session} (hwatches : s.Watches) (hphase : s.phase = .serving)
    (hquiet : s.signalled = false) (told : Telling) {n : Nat} (henough : s.loop.waiting ≤ n) :
    s.after (List.replicate n (.turn told)) =
        s.resume (s.loop.settle (told.inputs s.settings.store)).1 ∧
      s.actions (List.replicate n (.turn told)) =
        (s.loop.settle (told.inputs s.settings.store)).2 := by
  induction n generalizing s with
  | zero =>
    have hidle : s.Idle := ⟨hphase, Nat.le_zero.1 henough⟩
    rw [Loop.settle_of_none (hidle.still _)]
    exact ⟨s.resume_loop.symm, rfl⟩
  | succ n ih =>
    rw [List.replicate_succ, after_cons, actions, next, perform]
    cases hacted : s.loop.turn? (told.inputs s.settings.store) with
    | none =>
      have hnothing := Loop.turn?_eq_none_iff.1 hacted
      rw [turn_of_idle ⟨hphase, hnothing⟩ hquiet]
      exact ih hwatches hphase hquiet (by rw [hnothing]; exact Nat.zero_le n)
    | some p =>
      obtain ⟨l, actions⟩ := p
      have hfewer := Loop.waiting_turn?_lt hacted
      have hrest := ih (s := s.resume l) (hwatches.resume l) hphase hquiet
        (by rw [loop_resume hwatches]; omega)
      rw [turn_of_serving hphase hacted, Loop.settle_of_some hacted]
      rw [loop_resume hwatches, resume_resume] at hrest
      exact ⟨hrest.1, congrArg (actions ++ ·) hrest.2⟩

/-- After the signal the loop does what is left to do, and stops. -/
theorem after_turns_stop {s : Session} (hwatches : s.Watches) (hphase : s.phase = .serving)
    (hsignalled : s.signalled = true) (told : Telling) {n : Nat} (henough : s.loop.waiting < n) :
    s.after (List.replicate n (.turn told)) =
        { s.resume (s.loop.stop (told.inputs s.settings.store)).1 with phase := .closed } ∧
      s.actions (List.replicate n (.turn told)) =
        (s.loop.stop (told.inputs s.settings.store)).2 := by
  induction n generalizing s with
  | zero => exact absurd henough (Nat.not_lt_zero _)
  | succ n ih =>
    rw [List.replicate_succ, after_cons, actions, next, perform]
    cases hacted : s.loop.turn? (told.inputs s.settings.store) with
    | none =>
      have hnothing := Loop.turn?_eq_none_iff.1 hacted
      rw [turn_of_signalled ⟨hphase, hnothing⟩ hsignalled]
      obtain ⟨hended, hsilent⟩ := turns_of_closed (s := { s.resume _ with phase := .closed }) rfl
        told n
      exact ⟨hended, by rw [hsilent, List.append_nil]⟩
    | some p =>
      obtain ⟨l, actions⟩ := p
      have hfewer := Loop.waiting_turn?_lt hacted
      have hrest := ih (s := s.resume l) (hwatches.resume l) hphase hsignalled
        (by rw [loop_resume hwatches]; omega)
      rw [turn_of_serving hphase hacted, Loop.stop_of_some hacted]
      rw [loop_resume hwatches, resume_resume] at hrest
      exact ⟨hrest.1, congrArg (actions ++ ·) hrest.2⟩

end Session

end Muezzin
