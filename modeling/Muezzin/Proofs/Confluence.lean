import Muezzin.Proofs.Backlog
import Muezzin.Proofs.Turns

/-!
# Reports before a rebuild, or in it

While reports wait, a rebuild may come before they are handled. It sweeps them up, together with
whatever else is due, and settles all of it in the order of the events' times. Handling the reports
first settles the same claims in the order of the reports, and a rollover among them even rebuilds
in between. Still both ways lead to the same: every azan and every announcement ends alike, the
same events wait, and the same executions are remembered. Only a rollover may be suppressed in one
way and superseded in the other.
-/

namespace Muezzin

def Action.endsPlay (a : Action) : Bool :=
  match a.settles? with
  | some r => r.event.kind != .rollover
  | none => false

theorem Action.endsPlay_of_settles_none {a : Action} (h : a.settles? = none) :
    a.endsPlay = false := by
  rw [endsPlay, h]

/-- What became of azans and announcements. -/
def Outcome.endings (o : Outcome) : List Action :=
  o.actions.filter Action.endsPlay

/-- The outcomes have the same endings in some order, the same events wait for the same deadlines,
and the same is remembered of everything but the rollover. -/
structure Outcome.Agrees (o p : Outcome) : Prop where
  endings : o.endings.Perm p.endings
  entries : o.engine.registry.live.map (fun r => (r.event, r.due)) =
    p.engine.registry.live.map fun r => (r.event, r.due)
  deadlines : o.engine.timers.pending.map Timer.due = p.engine.timers.pending.map Timer.due
  memory : ∀ key, key ≠ Event.rolloverKey →
    o.engine.debounce.lastRun? key = p.engine.debounce.lastRun? key

namespace Outcome

theorem endings_andThen (o : Outcome) (next : Engine → Outcome) :
    (o.andThen next).endings = o.endings ++ (next o.engine).endings :=
  List.filter_append _ _

theorem Agrees.trans {o p q : Outcome} (hfirst : o.Agrees p) (hsecond : p.Agrees q) :
    o.Agrees q where
  endings := hfirst.endings.trans hsecond.endings
  entries := hfirst.entries.trans hsecond.entries
  deadlines := hfirst.deadlines.trans hsecond.deadlines
  memory key hplays := (hfirst.memory key hplays).trans (hsecond.memory key hplays)

theorem Agrees.after (lead : Outcome) {next next' : Engine → Outcome}
    (hagrees : (next lead.engine).Agrees (next' lead.engine)) :
    (lead.andThen next).Agrees (lead.andThen next') :=
  { hagrees with
    endings := by
      rw [endings_andThen, endings_andThen]
      exact hagrees.endings.append_left _ }

end Outcome

namespace Engine

theorem queued_fires {e : Engine} {report : Fire} {fires : List Fire}
    (hwaiting : e.fires = report :: fires) :
    e.queued = ({ e with fires } : Engine).queued + 1 := by
  simp only [queued, hwaiting, List.length_cons]
  omega

/-- Handles the reports that wait one after another, and no request. -/
def handleFires (e : Engine) (inputs : Inputs) : Outcome :=
  match h : e.fires with
  | [] => ⟨e, []⟩
  | report :: fires =>
    have := queued_fires h
    have := queued_handle_le { e with fires } inputs (.fire report)
    let handled := ({ e with fires } : Engine).handle inputs (.fire report)
    let o := handled.engine.handleFires inputs
    ⟨o.engine, handled.actions ++ o.actions⟩
termination_by e.queued

/-- Handling all messages begins with handling all reports. -/
theorem processPending_eq (e : Engine) (inputs : Inputs) :
    (e.processPending inputs).2 =
      (e.handleFires inputs).andThen fun f => (f.processPending inputs).2 := by
  fun_induction handleFires e inputs with
  | case1 e hidle => simp [Outcome.andThen]
  | case2 e report fires hwaiting hshorter hkept handled o ih =>
    have hnext : e.nextMessage? = some (.fire report, { e with fires }) := by
      rw [nextMessage?, hwaiting]
    rw [processPending_some hnext]
    show handled.andThen _ = _
    simp only [Outcome.andThen] at ih ⊢
    rw [ih, List.append_assoc]

variable {e : Engine} {inputs : Inputs}

theorem settleDue_of_rolls {r : Registration} (hrolls : r.event.kind = .rollover) :
    settleDue inputs r e = ⟨e, [.superseded r]⟩ :=
  if_pos hrolls

theorem endings_settleDue_of_rolls {r : Registration} (hrolls : r.event.kind = .rollover) :
    (settleDue inputs r e).endings = [] := by
  rw [settleDue_of_rolls hrolls]
  simp [Outcome.endings, Action.endsPlay, Action.settles?, hrolls]

/-- A rebuild ends each claim as if it were the only one. -/
theorem endings_rebuild {reports : List Fire} (hbooks : e.registry.Consistent reports) :
    (e.rebuild inputs).endings = e.claimDue.1.flatMap fun r => (settleDue inputs r e).endings := by
  obtain ⟨later, hactions, hsilent⟩ := actions_rebuild e inputs
  have hnone : later.filter Action.endsPlay = [] :=
    List.filter_eq_nil_iff.2 fun a ha => by simp [Action.endsPlay_of_settles_none (hsilent a ha)]
  rw [Outcome.endings, hactions, List.filter_append, hnone, List.append_nil, deliverDue,
    actions_settleAll inputs (nodup_map_key_claimDue hbooks), List.filter_flatMap]
  apply List.flatMap_congr
  intro r _
  rw [Outcome.endings, (sameEnd_settleDue inputs (sameOutlook_claimDue e r.key)).1]

/-- A report that matches nothing makes no difference to a rebuild. -/
theorem rebuild_of_stale {report : Fire} {fires : List Fire} (hwaiting : e.fires = report :: fires)
    (hstale : ∀ r ∈ e.registry.live, r.fire ≠ report) (inputs : Inputs) :
    e.rebuild inputs = ({ e with fires } : Engine).rebuild inputs := by
  have hclaims : e.claimDue = ({ e with fires } : Engine).claimDue := by
    rcases e.registry.takeFired_cases report with ⟨r, hlive, hsame, -⟩ | ⟨-, htaken⟩
    · exact absurd hsame (hstale r hlive)
    · simp only [claimDue, hwaiting, claimFires, htaken]
      rfl
  rw [rebuild, rebuild, deliverDue, deliverDue, hclaims]

section Claimed

variable {r : Registration} {fires : List Fire} (hwaiting : e.fires = r.fire :: fires)
  (hlive : r ∈ e.registry.live) (hbooks : e.registry.Consistent e.fires) {d : Debounce Int}
include hwaiting hlive hbooks

theorem perm_claimDue_claimed :
    e.claimDue.1.Perm (r :: ({ e.claimed r fires with debounce := d } : Engine).claimDue.1) := by
  have htaken : e.registry.takeFired r.fire = (some r, e.registry.remove r) := by
    rcases e.registry.takeFired_cases r.fire with ⟨g, hg, hsame, htaken⟩ | ⟨hstale, -⟩
    · rw [htaken, hbooks.eq_of_fire_eq hg hlive hsame]
    · exact absurd rfl (hstale r hlive)
  simp only [claimDue, hwaiting, claimFires, htaken]
  refine (List.mergeSort_perm _ _).trans ?_
  exact (List.mergeSort_perm _ _).symm.cons r

theorem notMem_claimDue_claimed :
    r.key ∉
      ({ e.claimed r fires with debounce := d } : Engine).claimDue.1.map Registration.key := by
  have hclaims := (perm_claimDue_claimed hwaiting hlive hbooks (d := d)).map Registration.key
  exact (List.nodup_cons.1 (hclaims.nodup_iff.1 (nodup_map_key_claimDue hbooks))).1

theorem books_claimed : (e.claimed r fires).registry.Consistent fires := by
  rw [hwaiting] at hbooks
  exact hbooks.claim hlive

variable (huntouched : ∀ key, key ≠ r.key → d.lastRun? key = e.debounce.lastRun? key)
include huntouched

/-- A claim settled first ends like the same claim in a rebuild, and the others end alike. -/
theorem endings_rebuild_claimed (inputs : Inputs) :
    ((settleDue inputs r e).endings ++
      (({ e.claimed r fires with debounce := d } : Engine).rebuild inputs).endings).Perm
        (e.rebuild inputs).endings := by
  let f : Engine := { e.claimed r fires with debounce := d }
  have hleft : f.registry.Consistent fires := books_claimed hwaiting hlive hbooks
  have hothers : f.claimDue.1.flatMap (fun g => (settleDue inputs g f).endings) =
      f.claimDue.1.flatMap fun g => (settleDue inputs g e).endings := by
    apply List.flatMap_congr
    intro g hg
    have hother : g.key ≠ r.key := fun hsame =>
      notMem_claimDue_claimed hwaiting hlive hbooks
        (hsame ▸ List.mem_map_of_mem (f := Registration.key) hg)
    have houtlook : SameOutlook e f g.key := ⟨rfl, rfl, huntouched g.key hother⟩
    rw [Outcome.endings, Outcome.endings, (sameEnd_settleDue inputs houtlook).1]
  have hclaims : (r :: f.claimDue.1).Perm e.claimDue.1 :=
    (perm_claimDue_claimed hwaiting hlive hbooks).symm
  rw [endings_rebuild hbooks, endings_rebuild hleft, hothers]
  exact hclaims.flatMap_right fun g => (settleDue inputs g e).endings

theorem lastRun?_rebuild_claimed (inputs : Inputs) {key : String} (hother : key ≠ r.key) :
    (({ e.claimed r fires with debounce := d } : Engine).rebuild inputs).engine.debounce.lastRun?
      key = (e.rebuild inputs).engine.debounce.lastRun? key := by
  let f : Engine := { e.claimed r fires with debounce := d }
  have hleft : f.registry.Consistent fires := books_claimed hwaiting hlive hbooks
  have hclaims : e.claimDue.1.Perm (r :: f.claimDue.1) :=
    perm_claimDue_claimed hwaiting hlive hbooks
  have houtlook : SameOutlook e.claimDue.2 f.claimDue.2 key :=
    ⟨rfl, (clock_claimDue f).trans (clock_claimDue e).symm, huntouched key hother⟩
  by_cases hclaimed : key ∈ f.claimDue.1.map Registration.key
  · obtain ⟨g, hg, rfl⟩ := List.mem_map.1 hclaimed
    have halso := hclaims.mem_iff.2 (List.mem_cons_of_mem r hg)
    rw [lastRun?_rebuild_of_mem hleft inputs hg, lastRun?_rebuild_of_mem hbooks inputs halso]
    exact (sameEnd_settleDue inputs houtlook).2
  · have hneither : key ∉ e.claimDue.1.map Registration.key := fun h =>
      (List.mem_cons.1 ((hclaims.map Registration.key).mem_iff.1 h)).elim hother hclaimed
    rw [lastRun?_rebuild_of_notMem hclaimed, lastRun?_rebuild_of_notMem hneither]
    exact huntouched key hother

end Claimed

/-- Right after a rebuild only a rollover can be due, on the last date of the calendar. -/
theorem rolls_of_mem_claimDue_rebuild {history : List Action}
    (hsound : Moment.Sound ⟨(e.rebuild inputs).engine, [], history⟩) {r : Registration}
    (hclaimed : r ∈ (e.rebuild inputs).engine.claimDue.1) : r.event.kind = .rollover := by
  obtain ⟨hlive, hcalled⟩ := mem_claimDue hsound.books.distinct hclaimed
  rw [(Prod.mk.inj (queues_rebuild e inputs)).1, clock_rebuild] at hcalled
  have hdue := hcalled.resolve_left List.not_mem_nil
  cases hloaded : inputs.load e.clock.date with
  | error reason =>
    rw [(empties_rebuild hloaded).live] at hlive
    cases hlive
  | ok day =>
    obtain ⟨hscheduled, hat⟩ := (schedules_rebuild hloaded).entries.due_eq hlive
    rcases DailySchedule.mem_events_cases _ _ _ _ _ hscheduled with ⟨-, -, hfuture⟩ | hrolls
    · rw [hat] at hdue
      exact absurd hfuture (Int.not_lt.2 hdue)
    · rw [hrolls]
      rfl

/-- A second rebuild at the same time ends nothing and remembers nothing. -/
theorem endings_rebuild_rebuild (e : Engine) (inputs : Inputs) {history : List Action}
    (hsound : Moment.Sound ⟨(e.rebuild inputs).engine, [], history⟩) :
    ((e.rebuild inputs).engine.rebuild inputs).endings = [] ∧
      ∀ key, key ≠ Event.rolloverKey →
        ((e.rebuild inputs).engine.rebuild inputs).engine.debounce.lastRun? key =
          (e.rebuild inputs).engine.debounce.lastRun? key := by
  constructor
  · rw [endings_rebuild hsound.books, List.flatMap_eq_nil_iff]
    exact fun r hr => endings_settleDue_of_rolls (rolls_of_mem_claimDue_rebuild hsound hr)
  · intro key hplays
    apply lastRun?_rebuild_of_notMem
    intro h
    obtain ⟨r, hr, rfl⟩ := List.mem_map.1 h
    have hproper := hsound.books.proper r (mem_claimDue hsound.books.distinct hr).1
    exact hplays (hproper.key_eq_rolloverKey_iff.2 (rolls_of_mem_claimDue_rebuild hsound hr))

theorem agrees_rebuild {o : Outcome} (hbooks : e.registry.Consistent e.fires)
    (hleft : o.engine.registry.Consistent o.engine.fires) (hclock : o.engine.clock = e.clock)
    (htime : o.engine.rolloverTime = e.rolloverTime)
    (hendings : (o.endings ++ (o.engine.rebuild inputs).endings).Perm (e.rebuild inputs).endings)
    (hmemory : ∀ key, key ≠ Event.rolloverKey →
      (o.engine.rebuild inputs).engine.debounce.lastRun? key =
        (e.rebuild inputs).engine.debounce.lastRun? key) :
    (o.andThen (rebuild · inputs)).Agrees (e.rebuild inputs) := by
  have hentries := entries_rebuild hclock htime inputs
  refine ⟨by rwa [Outcome.endings_andThen], hentries, ?_, hmemory⟩
  show (o.engine.rebuild inputs).engine.timers.pending.map _ = _
  rw [pending_rebuild (timersOwned_of_books hleft), pending_rebuild (timersOwned_of_books hbooks),
    List.map_map, List.map_map]
  have hdues := congrArg (List.map Prod.snd) hentries
  rwa [List.map_map, List.map_map] at hdues

section Claimed

variable {r : Registration} {fires : List Fire} (hwaiting : e.fires = r.fire :: fires)
  (hlive : r ∈ e.registry.live) (hbooks : e.registry.Consistent e.fires)
include hwaiting hlive hbooks

/-- A claim that plays ends before a rebuild as it would in it. -/
theorem agrees_notify (hplays : r.event.kind ≠ .rollover) (inputs : Inputs) :
    (((e.claimed r fires).notify inputs r).andThen (rebuild · inputs)).Agrees
      (e.rebuild inputs) := by
  have hfirst : (e.claimed r fires).notify inputs r = settleDue inputs r (e.claimed r fires) :=
    (if_neg hplays).symm
  obtain ⟨d, a, hsettled, -, houtcome⟩ := settleDue_settles (e.claimed r fires) inputs r
  have huntouched (key : String) (hother : key ≠ r.key) :
      d.lastRun? key = e.debounce.lastRun? key := hsettled.lastRun?_of_ne hother
  have hclaimed : r ∈ e.claimDue.1 :=
    (perm_claimDue_claimed hwaiting hlive hbooks (d := d)).mem_iff.2 List.mem_cons_self
  have halike : SameEnd (settleDue inputs r e) (settleDue inputs r (e.claimed r fires)) r.key :=
    sameEnd_settleDue inputs ⟨rfl, rfl, rfl⟩
  have hinside : SameEnd (settleDue inputs r e) (settleDue inputs r e.claimDue.2) r.key :=
    sameEnd_settleDue inputs (sameOutlook_claimDue e r.key)
  rw [houtcome] at halike
  rw [hfirst, houtcome]
  refine agrees_rebuild hbooks (books_claimed hwaiting hlive hbooks) rfl rfl ?_ fun key _ => ?_
  · have hends := endings_rebuild_claimed hwaiting hlive hbooks huntouched inputs
    rwa [Outcome.endings, ← halike.1] at hends
  · by_cases hsame : key = r.key
    · subst hsame
      rw [lastRun?_rebuild_of_notMem (notMem_claimDue_claimed hwaiting hlive hbooks) inputs,
        lastRun?_rebuild_of_mem hbooks inputs hclaimed, hinside.2]
      exact halike.2
    · exact lastRun?_rebuild_claimed hwaiting hlive hbooks huntouched inputs hsame

/-- A claimed rollover may rebuild before the rebuild, and then there is nothing left to do. -/
theorem agrees_rollOver (hrolls : r.event.kind = .rollover) (inputs : Inputs)
    {history : List Action}
    (hsound : Moment.Sound ⟨((e.claimed r fires).rollOver inputs r).engine, [], history⟩) :
    (((e.claimed r fires).rollOver inputs r).andThen (rebuild · inputs)).Agrees
      (e.rebuild inputs) := by
  have hkey : r.key = Event.rolloverKey := (hbooks.proper r hlive).key_eq_rolloverKey_iff.2 hrolls
  have hsilent {a : Action} (hsettles : a.settles? = some r) : [a].filter Action.endsPlay = [] := by
    simp [Action.endsPlay, hsettles, hrolls]
  by_cases hallowed : (e.claimed r fires).debounce.allows r.key (e.claimed r fires).clock.millis
  · rw [rollOver_of_allows hallowed] at hsound ⊢
    let f : Engine :=
      { e.claimed r fires with debounce := e.debounce.stamp r.key e.clock.millis }
    have huntouched (key : String) (hother : key ≠ r.key) :
        f.debounce.lastRun? key = e.debounce.lastRun? key :=
      Debounce.lastRun?_stamp_of_ne _ hother _
    have hends := endings_rebuild_claimed hwaiting hlive hbooks huntouched inputs
    obtain ⟨hnothing, hunchanged⟩ := endings_rebuild_rebuild f inputs hsound
    refine agrees_rebuild hbooks hsound.books (clock_rebuild f inputs)
      (rolloverTime_rebuild f inputs) ?_ fun other hplays => ?_
    · rw [Outcome.endings_andThen, Outcome.endings, hsilent rfl, List.nil_append]
      show ((f.rebuild inputs).endings ++ ((f.rebuild inputs).engine.rebuild inputs).endings).Perm _
      rw [hnothing, List.append_nil]
      rwa [endings_settleDue_of_rolls hrolls, List.nil_append] at hends
    · exact (hunchanged other hplays).trans
        (lastRun?_rebuild_claimed hwaiting hlive hbooks huntouched inputs (hkey ▸ hplays))
  · rw [rollOver_of_not_allows hallowed] at hsound ⊢
    have hends := endings_rebuild_claimed hwaiting hlive hbooks (fun _ _ => rfl) inputs
    refine agrees_rebuild hbooks hsound.books rfl rfl ?_ fun other hplays => ?_
    · rw [endings_settleDue_of_rolls hrolls] at hends
      rwa [Outcome.endings, suppress, hsilent rfl]
    · exact lastRun?_rebuild_claimed hwaiting hlive hbooks (fun _ _ => rfl) inputs (hkey ▸ hplays)

end Claimed

theorem agrees_handleFire {history : List Action} (hsound : Moment.Sound ⟨e, [], history⟩)
    {report : Fire} {fires : List Fire} (hwaiting : e.fires = report :: fires) (inputs : Inputs) :
    ((({ e with fires } : Engine).handleFire inputs report).andThen (rebuild · inputs)).Agrees
      (e.rebuild inputs) := by
  have hbooks : e.registry.Consistent e.fires := hsound.books
  have hleft := ((leadsTo_handleFire hwaiting inputs history).keep Moment.Step.sound hsound)
  rcases handleFire_cases { e with fires } inputs report with ⟨hstale, houtcome⟩ |
    ⟨r, hlive, rfl, -⟩
  · rw [houtcome] at hleft ⊢
    have hsame := rebuild_of_stale hwaiting hstale inputs
    refine agrees_rebuild hbooks hleft.books rfl rfl ?_ fun key _ => ?_
    · rw [hsame]
      exact .refl _
    · rw [hsame]
  · have hclaim := handleFire_of_live (e := { e with fires }) hbooks hlive inputs
    rw [hclaim] at hleft ⊢
    split at hleft
    · next hrolls =>
      rw [if_pos hrolls]
      exact agrees_rollOver hwaiting hlive hbooks hrolls inputs hleft
    · next hplays =>
      rw [if_neg hplays]
      exact agrees_notify hwaiting hlive hbooks hplays inputs

theorem agrees_handleFires (e : Engine) (inputs : Inputs) (history : List Action) :
    Moment.Sound ⟨e, [], history⟩ →
      ((e.handleFires inputs).andThen (rebuild · inputs)).Agrees (e.rebuild inputs) := by
  revert history
  fun_induction handleFires e inputs with
  | case1 e hidle => exact fun _ _ => ⟨.refl _, rfl, rfl, fun _ _ => rfl⟩
  | case2 e report fires hwaiting hshorter hkept handled o ih =>
    intro history hsound
    have hlater := ih _ ((leadsTo_handleFire hwaiting inputs history).keep Moment.Step.sound hsound)
    have hwhole : (⟨o.engine, handled.actions ++ o.actions⟩ : Outcome).andThen (rebuild · inputs) =
        handled.andThen fun f => (f.handleFires inputs).andThen (rebuild · inputs) := by
      simp only [Outcome.andThen, List.append_assoc]
      rfl
    rw [hwhole]
    exact (hlater.after handled).trans (agrees_handleFire hsound hwaiting inputs)

/-- Whatever waits and whatever is due, a rebuild comes to the same whether the reports that wait
are handled before it or left to it. Handling them is what the handling of all messages begins
with. -/
theorem rebuild_confluent {e : Engine} (harises : e.Arises) (inputs : Inputs) :
    ((e.handleFires inputs).andThen (rebuild · inputs)).Agrees (e.rebuild inputs) ∧
    (e.processPending inputs).2 =
      (e.handleFires inputs).andThen fun f => (f.processPending inputs).2 :=
  ⟨agrees_handleFires e inputs [] harises.sound, processPending_eq e inputs⟩

/-- The reports of an announcement, of its azan and of the rollover wait when a rebuild comes. -/
theorem rebuild_confluent_reported :
    ∃ e : Engine, e.Arises ∧ e.fires.map Fire.key =
        ["announcement_maghrib", "azan_maghrib", "next_day_update"] ∧
      (e.rebuild (.daily .isha ⟨1200, by decide⟩)).endings.length = 2 ∧
      ((e.handleFires (.daily .isha ⟨1200, by decide⟩)).andThen
        (rebuild · (.daily .isha ⟨1200, by decide⟩))).Agrees
          (e.rebuild (.daily .isha ⟨1200, by decide⟩)) := by
  obtain ⟨new, hcreated⟩ : ∃ e, Engine.new {} ⟨0, .utc⟩ = .ok e := ⟨_, rfl⟩
  let e := (new.run [.rebuild (.daily .maghrib ⟨1080, by decide⟩),
    .advanceTo ⟨86400000, .utc⟩]).engine
  have harises : e.Arises := .run (.new hcreated) _
  obtain ⟨-, rfl⟩ := new_eq hcreated
  have hboth : (e.rebuild (.daily .isha ⟨1200, by decide⟩)).endings.length = 2 := by cbv
  exact ⟨e, harises, by cbv, hboth, (rebuild_confluent harises _).1⟩

end Engine

end Muezzin
