import Muezzin.Proofs.Observers

/-!
# Rehearsals of the loop are sessions

What a rehearsal with a running loop does in one go, a session does step by step: every timer that
fires on the way to an instant is one happening, and every message that the loop handles before it
rests is one turn. So what is true of every session is true of every rehearsal of the loop.
-/

namespace Muezzin

/-- Some happenings lead from one session to the other, and meanwhile the loop does this. -/
def Session.Leads (s t : Session) (actions : List Action) : Prop :=
  ∃ hs, t = s.after hs ∧ actions = s.actions hs

namespace Session.Leads

theorem refl (s : Session) : s.Leads s [] :=
  ⟨[], rfl, rfl⟩

theorem trans {s t u : Session} {before later : List Action} (hfirst : s.Leads t before)
    (hsecond : t.Leads u later) : s.Leads u (before ++ later) := by
  obtain ⟨hs, rfl, rfl⟩ := hfirst
  obtain ⟨hs', rfl, rfl⟩ := hsecond
  exact ⟨hs ++ hs', (s.after_append hs hs').symm, (s.actions_append hs hs').symm⟩

theorem single (s : Session) (h : Happening) : s.Leads (s.next h) (s.perform h).2 :=
  ⟨[h], rfl, (List.append_nil _).symm⟩

end Session.Leads

theorem Session.leads_advanceTo (s : Session) (target : Instant) :
    s.Leads { s with engine := (s.engine.advanceTo target).2 } [] := by
  suffices hfires : ∀ timers, s.engine.timers = timers → s.Leads
      { s with engine :=
        { s.engine with
          registry := s.engine.registry.withTimers (timers.advanceTo target).2
          fires := s.engine.fires ++ (timers.advanceTo target).1.map (·.payload) } } [] from
    hfires _ rfl
  intro timers hsame
  fun_induction Timeline.advanceTo timers target generalizing s with
  | case1 timers hstill =>
    have hrest := Leads.single s (.setClock (timers.clock.later target))
    rw [next, perform, Engine.setClock, hsame] at hrest
    rw [List.map_nil, List.append_nil]
    exact hrest
  | case2 timers timer rest hpopped hshorter fired last hlater ih =>
    obtain ⟨hpending, -, rfl⟩ := Timeline.mem_of_popDue? hpopped
    let moved : Engine :=
      { s.engine with
        registry := s.engine.registry.withTimers ((timers.cancel timer.id).moveClock timer.due)
        fires := s.engine.fires ++ [timer.payload] }
    have hfires := Leads.single s (.fire timer)
    have hmoves := Leads.single (s.next (.fire timer))
      (.setClock ((timers.cancel timer.id).clock.later timer.due))
    have hhere : (s.next (.fire timer)).next
        (.setClock ((timers.cancel timer.id).clock.later timer.due)) =
        { s with engine := moved } := by
      simp only [next, perform, Engine.fire, hsame, if_pos hpending]
      rfl
    rw [hhere] at hmoves
    have hrest := ih { s with engine := moved } rfl
    rw [hlater, List.append_assoc] at hrest
    exact (hfires.trans hmoves).trans hrest

theorem Session.leads_notify (s : Session) (change : SettingsChange) (count : Nat) :
    s.Leads { s with settings := Nat.repeat (·.announce change) count s.settings } [] := by
  induction count with
  | zero => exact .refl s
  | succ count ih => exact ih.trans (.single _ (.notify change))

namespace LiveRehearsal

/-- The loop watches the settings of the rehearsal, and nobody else does. -/
structure Watches (l : LiveRehearsal) : Prop where
  alone : l.world.settings.watchers.length = 1
  watched : ∃ b, l.world.settingsFrom = .memory b

def session (l : LiveRehearsal) : Session where
  engine := l.world.engine
  settings := l.world.settings
  watcher := 0
  phase := if l.running then .serving else .closed
  signalled := l.signalled

def telling (l : LiveRehearsal) : Telling where
  source :=
    { times := fun date => Rehearsal.orFault l.world.faults.times (l.world.source.times date)
      complaints := fun date =>
        if l.world.faults.times.isSome then [] else l.world.source.complaints date }
  settingsFault := l.world.faults.settings
  flagsFault := l.world.faults.flags

variable {l : LiveRehearsal}

theorem Watches.inputs (hwatches : l.Watches) :
    l.world.inputs = l.telling.inputs l.session.settings.store := by
  obtain ⟨b, hwatched⟩ := hwatches.watched
  have hstore : l.world.store = l.session.settings.store := by
    rw [Rehearsal.store, hwatched]
    rfl
  rw [Rehearsal.inputs, hstore]
  rfl

theorem Watches.session (hwatches : l.Watches) : l.session.Watches := by
  rw [Session.Watches, LiveRehearsal.session, hwatches.alone]
  exact Nat.zero_lt_one

theorem Watches.loop_session (hwatches : l.Watches) : l.session.loop = l.loop := by
  obtain ⟨feed, halone⟩ := List.length_eq_one_iff.1 hwatches.alone
  rw [Session.loop, Session.feed, LiveRehearsal.session, loop, LiveRehearsal.feed, halone]
  rfl

theorem leads_request (l : LiveRehearsal) (command : Command) :
    l.session.Leads
      { l with
        world := if l.running then l.world.withEngine (l.world.engine.request command) else l.world
      }.session [] := by
  split
  · exact .single l.session (.request command)
  · exact .refl l.session

theorem leads_apply (l : LiveRehearsal) (s : Stimulus) :
    l.session.Leads { l with world := (l.world.apply l.running s).2 }.session [] := by
  cases s with
  | timersTo target => exact l.session.leads_advanceTo target
  | timersBy millis => exact l.session.leads_advanceTo _
  | fireDue => exact l.session.leads_advanceTo _
  | setClock i => exact .single l.session (.setClock i)
  | reschedule reason => exact l.leads_request (.reschedule reason)
  | requestClear => exact l.leads_request .clear
  | setSettings settings => exact .single l.session (.setPrayers settings)
  | setFlags flags => exact .single l.session (.setFlags flags)
  | notify change count => exact l.session.leads_notify change count
  | insert | setDefault | clearTimes | fault | write | closeEvents => exact .refl l.session

theorem Watches.apply (hwatches : l.Watches) (s : Stimulus) :
    ({ l with world := (l.world.apply l.running s).2 } : LiveRehearsal).Watches := by
  obtain ⟨halone, hwatched⟩ := hwatches
  cases s with
  | setSettings | setFlags => exact ⟨(List.length_map _).trans halone, hwatched⟩
  | notify change count =>
    refine ⟨?_, hwatched⟩
    show (Nat.repeat (·.announce change) count l.world.settings).watchers.length = 1
    induction count with
    | zero => exact halone
    | succ count ih => exact (List.length_map _).trans ih
  | reschedule | requestClear =>
    cases hrunning : l.running <;> exact ⟨halone, hwatched⟩
  | _ => exact ⟨halone, hwatched⟩

theorem leads_applyAll (hwatches : l.Watches) (ss : List Stimulus) :
    (applyAll ss l).2.Watches ∧ l.session.Leads (applyAll ss l).2.session [] := by
  induction ss generalizing l with
  | nil => exact ⟨hwatches, .refl l.session⟩
  | cons s ss ih =>
    obtain ⟨hstill, hlater⟩ := ih (hwatches.apply s)
    exact ⟨hstill, (l.leads_apply s).trans hlater⟩

theorem leads_signal (l : LiveRehearsal) (reaches : Bool) (held : Bool) :
    l.session.Leads
      { l with senderHeld := held, signalled := l.signalled || reaches }.session [] := by
  cases reaches with
  | false =>
    rw [Bool.or_false]
    exact .refl l.session
  | true =>
    rw [Bool.or_true]
    exact .single l.session .signal

theorem leads_prompt (hwatches : l.Watches) (op : LiveOperation) :
    (l.prompt op).2.Watches ∧ l.session.Leads (l.prompt op).2.session [] := by
  cases op with
  | stimulus s => exact ⟨hwatches.apply s, l.leads_apply s⟩
  | batch ss => exact leads_applyAll hwatches ss
  | shutdown | dropSender =>
    rw [prompt]
    split
    · exact ⟨⟨hwatches.alone, hwatches.watched⟩, l.leads_signal _ false⟩
    · exact ⟨hwatches, .refl l.session⟩
  | interrupt => exact ⟨⟨hwatches.alone, hwatches.watched⟩, l.leads_signal _ l.senderHeld⟩

theorem Watches.session_recordLoop (hwatches : l.Watches) (step : Loop × List Action) :
    { l with world := recordLoop l.world step }.session = l.session.resume step.1 := by
  obtain ⟨feed, halone⟩ := List.length_eq_one_iff.1 hwatches.alone
  have hsame : (l.world.settings.watchers.map fun _ => step.1.feed) =
      l.world.settings.watchers.set 0 step.1.feed := by
    rw [halone]
    rfl
  exact congrArg (fun watchers =>
    { l.session with
      engine := step.1.engine, settings := { l.world.settings with watchers } }) hsame

/-- What the loop does at once, it does turn by turn. -/
theorem leads_react (hwatches : l.Watches) :
    l.react.Watches ∧ l.session.Leads l.react.session (l.reactWith fun _ => l.world.inputs).2 := by
  cases hrunning : l.running with
  | false =>
    rw [react_of_ended hrunning, reactWith_of_ended hrunning]
    exact ⟨hwatches, .refl l.session⟩
  | true =>
    have hgoesOn : ¬(!l.running) = true := by simp [hrunning]
    have hserving : l.session.phase = .serving := if_pos hrunning
    have halone (step : Loop × List Action) :
        (recordLoop l.world step).settings.watchers.length = 1 :=
      (List.length_map _).trans hwatches.alone
    cases hsignalled : l.signalled with
    | false =>
      have hunsignalled : ¬l.signalled = true := by simp [hsignalled]
      obtain ⟨hafter, hactions⟩ := Session.after_turns_settle hwatches.session hserving hsignalled
        l.telling (Nat.le_refl _)
      have hacts : l.react = { l with
          world := (recordLoop l.world (l.loop.settle l.world.inputs)).runDeliveries } := by
        simp only [react, if_neg hgoesOn, if_neg hunsignalled]
        rfl
      rw [← hwatches.inputs, hwatches.loop_session] at hafter hactions
      rw [(reactWith_of_quiet hrunning hsignalled).2, Loop.settleWith_const, hacts]
      exact ⟨⟨halone _, hwatches.watched⟩, _, (hwatches.session_recordLoop _).trans hafter.symm,
        hactions.symm⟩
    | true =>
      obtain ⟨hafter, hactions⟩ := Session.after_turns_stop hwatches.session hserving hsignalled
        l.telling (Nat.lt_succ_self _)
      have hacts : l.react = { l with
          world := { recordLoop l.world (l.loop.stop l.world.inputs) with deliveries := [] }
          running := false } := by
        simp only [react, if_neg hgoesOn, if_pos hsignalled]
        rfl
      rw [← hwatches.inputs, hwatches.loop_session] at hafter hactions
      rw [(reactWith_of_signalled hrunning hsignalled).2, Loop.stopWith_const, hacts]
      refine ⟨⟨halone _, hwatches.watched⟩, _, ?_, hactions.symm⟩
      exact (congrArg (fun s : Session => { s with phase := .closed })
        (hwatches.session_recordLoop _)).trans hafter.symm

theorem leads_start {world : Rehearsal} (hfresh : world.settings.watchers = [])
    (hwatched : world.settingsFrom = .memory true) (stopsOn : StopSignal) :
    let l : LiveRehearsal := { world := watch world, stopsOn }
    let started := Loop.start l.world.engine l.world.inputs
    let begun := { l with world := recordLoop l.world started }
    begun.Watches ∧ (Session.enter world.engine world.settings).Leads begun.session started.2 := by
  intro l started begun
  have hwatching : watch world = { world with settings := world.settings.watch.2 } := by
    rw [watch, hwatched]
  have halone : l.world.settings.watchers = [.empty] := by
    show (watch world).settings.watchers = [.empty]
    rw [hwatching]
    show world.settings.watchers ++ [.empty] = [.empty]
    rw [hfresh]
    rfl
  have hwatches : l.Watches :=
    ⟨congrArg List.length halone, true, by
      show (watch world).settingsFrom = .memory true
      rw [hwatching]
      exact hwatched⟩
  let entered := Session.enter world.engine world.settings
  have hfirst : world.settings.watch.1 = 0 := by
    rw [MemorySettings.watch, hfresh]
    rfl
  have hsession : l.session = { entered with phase := .serving } := by
    show (⟨(watch world).engine, (watch world).settings, 0, .serving, false⟩ : Session) =
      ⟨world.engine, world.settings.watch.2, world.settings.watch.1, .serving, false⟩
    rw [hwatching, hfirst]
  have hengine : entered.engine = l.world.engine := (congrArg Session.engine hsession :).symm
  have hinputs : l.telling.inputs entered.settings.store = l.world.inputs := by
    rw [hwatches.inputs, hsession]
  have hturn : entered.turn l.telling =
      ({ entered with engine := started.1.engine, phase := .serving }, started.2) := by
    show ({ entered with
        engine := (Loop.start entered.engine (l.telling.inputs entered.settings.store)).1.engine
        phase := .serving },
      (Loop.start entered.engine (l.telling.inputs entered.settings.store)).2) = _
    rw [hinputs, hengine]
  have hfeed : started.1 = ⟨started.1.engine, l.session.feed⟩ := by
    rw [Session.feed, LiveRehearsal.session, halone]
    rfl
  have hbegins :
      begun.session = { entered with engine := started.1.engine, phase := .serving } := by
    rw [hwatches.session_recordLoop, hfeed, Session.resume_feed, hsession]
  refine ⟨⟨(List.length_map _).trans hwatches.alone, hwatches.watched⟩, [.turn l.telling], ?_, ?_⟩
  · exact hbegins.trans (congrArg Prod.fst hturn).symm
  · exact (congrArg Prod.snd hturn).symm.trans (List.append_nil _).symm

end LiveRehearsal

namespace Stage

variable {s : Stage}

theorem leads_perform (s : Stage) (deed : Deed) (is : List (Gallery → Gallery))
    (hwatches : (s.obey (fun r _ => r.inputs) deed).2.live.Watches) :
    let obeyed := (s.obey (fun r _ => r.inputs) deed).2
    let t := (s.perform ⟨{ deed }, is⟩).2
    t.live.Watches ∧ ∃ later, t.actions = obeyed.actions ++ later ∧
      obeyed.live.session.Leads t.live.session later := by
  intro obeyed t
  obtain ⟨hafter, hactions⟩ := s.live_perform deed is
  obtain ⟨hreacted, hanswered⟩ := LiveRehearsal.leads_react hwatches
  have hstill : t.live.unobserved.Watches := hafter ▸ ⟨hreacted.alone, hreacted.watched⟩
  have hsession : t.live.session = obeyed.live.react.session :=
    (congrArg LiveRehearsal.session hafter :)
  exact ⟨⟨hstill.alone, hstill.watched⟩, _, hactions, hsession ▸ hanswered⟩

theorem leads_live (hwatches : s.live.Watches) (op : LiveOperation)
    (is : List (Gallery → Gallery)) :
    let t := (s.perform ⟨{ deed := .live op }, is⟩).2
    t.live.Watches ∧ ∃ later, t.actions = s.actions ++ later ∧
      s.live.session.Leads t.live.session later := by
  obtain ⟨hprompted, hheard⟩ := LiveRehearsal.leads_prompt hwatches op
  obtain ⟨hstill, later, hactions, hleads⟩ := s.leads_perform (.live op) is hprompted
  exact ⟨hstill, later, hactions, hheard.trans hleads⟩

theorem leads_start {world : Rehearsal} (hfresh : world.settings.watchers = [])
    (hwatched : world.settingsFrom = .memory true) (stopsOn : StopSignal)
    (is : List (Gallery → Gallery)) :
    let t := ((of world).perform ⟨{ deed := .start stopsOn }, is⟩).2
    t.live.Watches ∧
    (Session.enter world.engine world.settings).Leads t.live.session t.actions := by
  obtain ⟨hbegun, hfirst⟩ := LiveRehearsal.leads_start hfresh hwatched stopsOn
  obtain ⟨hstill, later, hactions, hleads⟩ :=
    (of world).leads_perform (.start stopsOn) is hbegun
  exact ⟨hstill, hactions ▸ hfirst.trans hleads⟩

/-- Whatever is done to a rehearsal while its loop has the engine, and whoever looks on, the loop is
where some session leads, and it has done the same. -/
theorem leads_session {world : Rehearsal} (hfresh : world.settings.watchers = [])
    (hwatched : world.settingsFrom = .memory true) (stopsOn : StopSignal)
    (opening : List (Gallery → Gallery))
    (run : List (LiveOperation × List (Gallery → Gallery))) :
    let started := ((of world).perform ⟨{ deed := .start stopsOn }, opening⟩).2
    let s := run.foldl (fun s p => (s.perform ⟨{ deed := .live p.1 }, p.2⟩).2) started
    (Session.enter world.engine world.settings).Leads s.live.session s.actions := by
  obtain ⟨hwatches, hleads⟩ := leads_start hfresh hwatched stopsOn opening
  generalize ((of world).perform ⟨{ deed := .start stopsOn }, opening⟩).2 = s at hwatches hleads ⊢
  induction run generalizing s with
  | nil => exact hleads
  | cons p run ih =>
    obtain ⟨hstill, later, hactions, hfurther⟩ := leads_live hwatches p.1 p.2
    exact ih _ hstill (hactions ▸ hleads.trans hfurther)

end Stage

end Muezzin
