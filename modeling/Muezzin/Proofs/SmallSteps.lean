import Muezzin.Proofs.Moments

/-!
# Every operation is a chain of small steps

Function by function, from the claims of a rebuild up to whole runs: what an operation makes of an
engine, small steps make of it as well, and they record the same actions in the same order. A chain
begins with the registrations that are in hand and ends with none.
-/

namespace Muezzin

/-- Small steps lead from an engine with claims in hand to an outcome with none. -/
def LeadsTo (e : Engine) (hand : List Registration) (o : Outcome) : Prop :=
  ∀ history, Moment.Steps ⟨e, hand, history⟩ ⟨o.engine, [], history ++ o.actions⟩

theorem LeadsTo.rest (e : Engine) : LeadsTo e [] ⟨e, []⟩ := by
  intro history
  rw [List.append_nil]

theorem LeadsTo.andThen {e : Engine} {hand : List Registration} {o : Outcome}
    {next : Engine → Outcome} (hfirst : LeadsTo e hand o)
    (hsecond : LeadsTo o.engine [] (next o.engine)) : LeadsTo e hand (o.andThen next) := by
  intro history
  have hlater := hsecond (history ++ o.actions)
  rw [List.append_assoc] at hlater
  exact (hfirst history).trans hlater

theorem LeadsTo.of_steps {e f : Engine} {hand hand' : List Registration} {o : Outcome}
    (hsilent : ∀ history, Moment.Steps ⟨e, hand, history⟩ ⟨f, hand', history⟩)
    (hlater : LeadsTo f hand' o) : LeadsTo e hand o :=
  fun history => (hsilent history).trans (hlater history)

theorem LeadsTo.of_step {e f : Engine} {hand hand' : List Registration} {o : Outcome}
    (hsilent : ∀ history, Moment.Step ⟨e, hand, history⟩ ⟨f, hand', history⟩)
    (hlater : LeadsTo f hand' o) : LeadsTo e hand o :=
  .of_steps (fun history => .single (hsilent history)) hlater

theorem LeadsTo.note (e : Engine) {a : Action} (hnote : a.IsNote) : LeadsTo e [] ⟨e, [a]⟩ :=
  fun history => .single (.note e [] history hnote)

theorem LeadsTo.cons {e : Engine} {o : Outcome} {a : Action} (hleads : LeadsTo e [] o)
    (hnote : a.IsNote) : LeadsTo e [] ⟨o.engine, a :: o.actions⟩ := by
  show LeadsTo e [] ((⟨e, [a]⟩ : Outcome).andThen fun _ => o)
  exact (LeadsTo.note e hnote).andThen hleads

theorem LeadsTo.notes (e : Engine) {actions : List Action} (hnotes : ∀ a ∈ actions, a.IsNote) :
    LeadsTo e [] ⟨e, actions⟩ := by
  induction actions with
  | nil => exact .rest e
  | cons a actions ih =>
    have hlater := ih fun b hb => hnotes b (List.mem_cons_of_mem a hb)
    exact hlater.cons (hnotes a List.mem_cons_self)

theorem LeadsTo.settle {e : Engine} {inputs : Inputs} {r : Registration}
    {hand : List Registration} {d : Debounce Int} {a : Action} {o : Outcome}
    (hsettled : Settlement e inputs r d a) (hlater : LeadsTo { e with debounce := d } hand o) :
    LeadsTo e (r :: hand) ⟨o.engine, a :: o.actions⟩ := by
  intro history
  have hrest := hlater (history ++ [a])
  rw [List.append_assoc, List.singleton_append] at hrest
  exact (Relation.ReflTransGen.single (.settle hsettled)).trans hrest

namespace Engine

theorem leadsTo_settleAll (inputs : Inputs) (rs : List Registration) (e : Engine) :
    LeadsTo e rs (settleAll inputs rs e) := by
  induction rs generalizing e with
  | nil => exact .rest e
  | cons r rs ih =>
    obtain ⟨d, a, hsettled, -, houtcome⟩ := settleDue_settles e inputs r
    rw [settleAll, houtcome]
    exact .settle hsettled (ih _)

/-- The reports are claimed or dropped one by one. -/
theorem steps_claimFires (e : Engine) (hand : List Registration) (history : List Action)
    (fires : List Fire) (registry : Registry) :
    Moment.Steps ⟨{ e with registry, fires }, hand, history⟩
      ⟨{ e with registry := (claimFires fires registry).2, fires := [] },
        hand ++ (claimFires fires registry).1, history⟩ := by
  induction fires generalizing hand registry with
  | nil =>
    rw [claimFires, List.append_nil]
  | cons report fires ih =>
    rcases registry.takeFired_cases report with ⟨r, hlive, rfl, htaken⟩ | ⟨hstale, htaken⟩
    · rw [claimFires, htaken]
      have hlater := ih (hand ++ [r]) (registry.remove r)
      rw [List.append_assoc] at hlater
      exact .head (.claim rfl hlive) hlater
    · rw [claimFires, htaken]
      exact .head (.drop rfl hstale) (ih hand registry)

theorem timers_claimFires (fires : List Fire) (registry : Registry) :
    (claimFires fires registry).2.timers = registry.timers := by
  induction fires generalizing registry with
  | nil => rfl
  | cons report fires ih =>
    rcases registry.takeFired_cases report with ⟨r, -, -, htaken⟩ | ⟨-, htaken⟩
    · rw [claimFires, htaken]
      exact ih (registry.remove r)
    · rw [claimFires, htaken]
      exact ih registry

theorem steps_claimDue (e : Engine) (history : List Action) :
    Moment.Steps ⟨e, [], history⟩ ⟨e.claimDue.2, e.claimDue.1, history⟩ := by
  have hreported := steps_claimFires e [] history e.fires e.registry
  have hoverdue := Moment.Step.claimDue
    { e with registry := (claimFires e.fires e.registry).2, fires := [] }
    ([] ++ (claimFires e.fires e.registry).1) history
  -- Claiming reports does not touch the timers, so the clock is still that of `e`.
  rw [clock, timers, timers_claimFires] at hoverdue
  refine hreported.trans (.head hoverdue (.single (.reorder _ _ ?_)))
  exact (List.mergeSort_perm _ _).symm

theorem leadsTo_deliverDue (e : Engine) (inputs : Inputs) : LeadsTo e [] (e.deliverDue inputs) :=
  .of_steps (steps_claimDue e) (leadsTo_settleAll inputs _ _)

theorem leadsTo_clear (e : Engine) : LeadsTo e [] e.clear.2 :=
  fun history => .single (.cancelAll e [] history)

/-- An event whose key is free is registered, and the keys of the later events stay free. -/
theorem arm_cons {event : Event} {events : List Event}
    (hdistinct : ((event :: events).map Event.key).Nodup) {e : Engine}
    (hfree : ∀ r ∈ e.registry.live, r.key ∉ (event :: events).map Event.key) :
    let r := e.registry.upcoming event (event.fireAt e.clock.zone)
    (∀ g ∈ e.registry.live, g.key ≠ event.key) ∧
      (∀ g ∈ (e.registry.enrol r).live, g.key ∉ events.map Event.key) ∧
      arm (event :: events) e =
        (⟨{ e with registry := e.registry.enrol r }, [.armed r]⟩ : Outcome).andThen
          (arm events) := by
  have hfreeKey : ∀ g ∈ e.registry.live, g.key ≠ event.key :=
    fun g hg hsame => hfree g hg (hsame ▸ List.mem_cons_self)
  refine ⟨hfreeKey, fun g hg => ?_, ?_⟩
  · rcases List.mem_append.1 hg with hg | hg
    · exact fun h => hfree g hg (List.mem_cons_of_mem _ h)
    · rw [List.mem_singleton.1 hg]
      exact (List.nodup_cons.1 hdistinct).1
  · rw [arm, Registry.register_of_free _ hfreeKey]

theorem leadsTo_arm {events : List Event} (hproper : ∀ event ∈ events, event.Proper)
    (hdistinct : (events.map Event.key).Nodup) {e : Engine}
    (hfree : ∀ r ∈ e.registry.live, r.key ∉ events.map Event.key) :
    LeadsTo e [] (arm events e) := by
  induction events generalizing e with
  | nil => exact .rest e
  | cons event events ih =>
    obtain ⟨hfreeKey, hfreeLater, harmed⟩ := arm_cons hdistinct hfree
    rw [harmed]
    refine LeadsTo.andThen (fun history => .single ?_)
      (ih ?_ (List.nodup_cons.1 hdistinct).2 hfreeLater)
    · exact .enrol _ (hproper event List.mem_cons_self) hfreeKey
    · exact fun other h => hproper other (List.mem_cons_of_mem _ h)

theorem leadsTo_armSchedule (e : Engine) (day : DayInputs) (cancelled : Nat)
    (hempty : e.registry.live = []) : LeadsTo e [] (e.armSchedule day cancelled) := by
  have harmed : LeadsTo e [] (arm (DailySchedule.build day.times day.settings day.flags e.clock
      e.rolloverTime).events e) := by
    apply leadsTo_arm
    · exact fun event => DailySchedule.proper_of_mem_events _ _ _ _ _
    · exact DailySchedule.nodup_map_key_events _ _ _ _ _
    · simp [hempty]
  refine LeadsTo.andThen (LeadsTo.andThen (.notes e ?_) harmed) (.note _ ⟨rfl, rfl, rfl⟩)
  intro a ha
  rcases List.mem_append.1 ha with ha | ha
  · obtain ⟨p, -, rfl⟩ := List.mem_map.1 ha
    exact ⟨rfl, rfl, rfl⟩
  · obtain ⟨event, -, rfl⟩ := List.mem_map.1 ha
    exact ⟨rfl, rfl, rfl⟩

theorem leadsTo_build (e : Engine) (inputs : Inputs) (cancelled : Nat)
    (hempty : e.registry.live = []) : LeadsTo e [] (e.build inputs cancelled) := by
  refine LeadsTo.andThen (.notes e ?_) ?_
  · intro a ha
    rcases List.mem_cons.1 ha with rfl | ha
    · exact ⟨rfl, rfl, rfl⟩
    · obtain ⟨complaint, -, rfl⟩ := List.mem_map.1 ha
      exact ⟨rfl, rfl, rfl⟩
  · dsimp only
    split
    · exact leadsTo_armSchedule e _ cancelled hempty
    · exact .note e ⟨rfl, rfl, rfl⟩

theorem leadsTo_rebuild (e : Engine) (inputs : Inputs) : LeadsTo e [] (e.rebuild inputs) := by
  refine (leadsTo_deliverDue e inputs).andThen ?_
  refine (leadsTo_clear _).andThen ?_
  exact leadsTo_build _ inputs _ (Registry.live_cancelAll _)

/-- A claimed rollover is settled before the rebuild that it starts. -/
theorem leadsTo_rollOver (e : Engine) (inputs : Inputs) {r : Registration}
    (hrolls : r.event.kind = .rollover) : LeadsTo e [r] (e.rollOver inputs r) := by
  by_cases hallowed : e.debounce.allows r.key e.clock.millis
  · have hsettled : Settlement e inputs r _ _ := .rolledOver hrolls hallowed
    rw [rollOver_of_allows hallowed]
    exact .settle hsettled (leadsTo_rebuild _ inputs)
  · have hsettled : Settlement e inputs r _ _ := .suppressed hallowed
    rw [rollOver_of_not_allows hallowed]
    exact .settle hsettled (.rest e)

theorem leadsTo_handleFire {e : Engine} {report : Fire} {fires : List Fire}
    (hwaiting : e.fires = report :: fires) (inputs : Inputs) :
    LeadsTo e [] (({ e with fires } : Engine).handleFire inputs report) := by
  rcases handleFire_cases { e with fires } inputs report with
    ⟨hstale, houtcome⟩ | ⟨r, hlive, rfl, ⟨-, d, a, hsettled, houtcome⟩ | ⟨hrolls, houtcome⟩⟩
  · rw [houtcome]
    exact .of_step (fun history => .drop hwaiting hstale) (.note _ ⟨rfl, rfl, rfl⟩)
  · rw [houtcome]
    exact .of_step (fun history => .claim hwaiting hlive) (.settle hsettled (.rest _))
  · rw [houtcome]
    exact .of_step (fun history => .claim hwaiting hlive) (leadsTo_rollOver _ inputs hrolls)

theorem leadsTo_handleCommand {e : Engine} {command : Command} {commands : List Command}
    (hwaiting : e.commands = command :: commands) (inputs : Inputs) :
    LeadsTo e [] (({ e with commands } : Engine).handleCommand inputs command) := by
  refine .of_step (fun history => .takeUp hwaiting) ?_
  cases command with
  | reschedule reason => exact (LeadsTo.note _ ⟨rfl, rfl, rfl⟩).andThen (leadsTo_rebuild _ inputs)
  | clear =>
    show LeadsTo _ [] ((clear _).2.andThen fun e => ⟨e, [.cleared _]⟩)
    exact (leadsTo_clear _).andThen (.note _ ⟨rfl, rfl, rfl⟩)

theorem leadsTo_handle {e rest : Engine} {message : Message}
    (hwaiting : e.nextMessage? = some (message, rest)) (inputs : Inputs) :
    LeadsTo e [] (rest.handle inputs message) := by
  unfold nextMessage? at hwaiting
  split at hwaiting
  · next report fires hfires =>
    cases hwaiting
    exact leadsTo_handleFire hfires inputs
  · next command commands hfires hcommands =>
    cases hwaiting
    exact leadsTo_handleCommand hcommands inputs
  · simp at hwaiting

theorem leadsTo_processPending (e : Engine) (inputs : Inputs) :
    LeadsTo e [] (e.processPending inputs).2 :=
  processPending_induction (motive := fun e o => LeadsTo e [] o) (fun e _ => .rest e)
    (fun _ _ _ hwaiting hlater => (leadsTo_handle hwaiting inputs).andThen hlater) e

/-- Advancing fires one timer after another and sets the clock to each deadline on the way. -/
theorem steps_advanceTo (e : Engine) (target : Instant) (history : List Action) :
    Moment.Steps ⟨e, [], history⟩ ⟨(e.advanceTo target).2, [], history⟩ := by
  have hgeneral : ∀ (timers : Timeline Fire) (fires : List Fire),
      Moment.Steps ⟨{ e with registry := e.registry.withTimers timers, fires }, [], history⟩
        ⟨{ e with
            registry := e.registry.withTimers (timers.advanceTo target).2
            fires := fires ++ (timers.advanceTo target).1.map (·.payload) }, [], history⟩ := by
    intro timers
    fun_induction Timeline.advanceTo timers target with
    | case1 timers hidle =>
      intro fires
      rw [List.map_nil, List.append_nil]
      exact .single (.setClock _ _ _ _)
    | case2 timers timer later hpopped hshorter fired last hended ih =>
      intro fires
      rw [hended] at ih
      have hrest := ih (fires ++ [timer.payload])
      rw [List.append_assoc, List.singleton_append] at hrest
      exact .head (.fire hpopped) (.head (.setClock _ _ _ _) hrest)
  exact hgeneral e.timers e.fires

theorem leadsTo_perform (e : Engine) (op : Operation) : LeadsTo e [] (e.perform op) := by
  cases op with
  | rebuild inputs => exact leadsTo_rebuild e inputs
  | clear => exact leadsTo_clear e
  | request command => exact .of_step (fun history => .request e [] history command) (.rest _)
  | next inputs =>
    rw [perform]
    split
    · next message rest hwaiting => exact leadsTo_handle hwaiting inputs
    · exact .rest e
  | process inputs => exact leadsTo_processPending e inputs
  | advanceTo target => exact .of_steps (steps_advanceTo e target) (.rest _)
  | setClock i => exact .of_step (fun history => .setClock e [] history i) (.rest _)

theorem leadsTo_run (e : Engine) (ops : List Operation) : LeadsTo e [] (e.run ops) := by
  induction ops generalizing e with
  | nil => exact .rest e
  | cons op ops ih => exact (leadsTo_perform e op).andThen (ih _)

end Engine

end Muezzin
