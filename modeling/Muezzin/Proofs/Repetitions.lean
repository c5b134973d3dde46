import Muezzin.Proofs.Fates
import Muezzin.Proofs.Turns

/-!
# Repetitions are a minute apart

An action is executed when its file is handed off, or when its rollover starts a rebuild. Under
every key the engine remembers the last execution, and it compares the clock with it before the
next one, whichever way the claim has come about. So the executions of a key are at least a minute
apart by the clock, even if the clock is set back. A claim that comes too early ends without
consequences, and the memory stays as it was, so it does not prolong the wait.
-/

namespace Muezzin

/-- The reading of the clock when the action under the key is executed. -/
def Action.executedAt? (key : String) : Action → Option Instant
  | handedOff r _ now => if r.key = key then some now else none
  | rolledOver r now => if r.key = key then some now else none
  | _ => none

def executions (key : String) (history : List Action) : List Instant :=
  history.filterMap (Action.executedAt? key)

namespace Action

theorem executedAt?_of_settles_none {a : Action} (h : a.settles? = none) (key : String) :
    a.executedAt? key = none := by
  cases a with
  | handedOff | rolledOver => cases h
  | _ => rfl

theorem key_eq_of_executedAt? {a : Action} {key : String} {now : Instant}
    (hexecuted : a.executedAt? key = some now) : ∃ r, a.settles? = some r ∧ r.key = key := by
  cases a with
  | handedOff r | rolledOver r =>
    rw [executedAt?, Option.ite_none_right_eq_some] at hexecuted
    exact ⟨r, rfl, hexecuted.1⟩
  | _ => cases hexecuted

end Action

theorem executions_append (key : String) (history actions : List Action) :
    executions key (history ++ actions) = executions key history ++ executions key actions :=
  List.filterMap_append

theorem executions_eq_nil {key : String} {actions : List Action}
    (hnone : ∀ a ∈ actions, a.executedAt? key = none) : executions key actions = [] :=
  List.filterMap_eq_nil_iff.2 hnone

/-- The memory has the last execution under every key, and they are a minute apart. -/
def Debounce.Records (d : Debounce Int) (history : List Action) : Prop :=
  ∀ key, d.lastRun? key = (executions key history).getLast?.map Instant.millis ∧
    Apart (executions key history)

namespace Debounce.Records

variable {d : Debounce Int} {history : List Action}

theorem note (hrecords : d.Records history) {a : Action} (hsilent : a.settles? = none) :
    d.Records (history ++ [a]) := by
  intro key
  have hnever : executions key [a] = [] := executions_eq_nil fun b hb => by
    rw [List.mem_singleton.1 hb]
    exact Action.executedAt?_of_settles_none hsilent key
  rw [executions_append, hnever, List.append_nil]
  exact hrecords key

/-- An allowed execution is remembered. -/
theorem stamp (hrecords : d.Records history) {key : String} {now : Instant}
    (hallowed : d.allows key now.millis) {a : Action}
    (hexecuted : ∀ other, a.executedAt? other = if key = other then some now else none) :
    (d.stamp key now.millis).Records (history ++ [a]) := by
  intro other
  obtain ⟨hlast, hapart⟩ := hrecords other
  rw [executions_append]
  by_cases hsame : key = other
  · subst hsame
    have honce : executions key [a] = [now] := by
      simp [executions, hexecuted]
    rw [honce, lastRun?_stamp_self, List.getLast?_append_cons]
    refine ⟨rfl, hapart.snoc fun ran hisLast => ?_⟩
    rw [hisLast] at hlast
    exact le_of_allows hallowed hlast
  · have hnever : executions other [a] = [] := by
      simp [executions, hexecuted, hsame]
    rw [hnever, List.append_nil, lastRun?_stamp_of_ne _ (Ne.symm hsame)]
    exact ⟨hlast, hapart⟩

/-- Settling a claim keeps the record, if there is a file for whatever plays. -/
theorem settle {e : Engine} (hrecords : e.debounce.Records history) {inputs : Inputs}
    {r : Registration} {a : Action} (hsettled : Settlement e inputs r d a)
    (hvoiced : a ≠ .unvoiced r) : d.Records (history ++ [a]) := by
  have hunchanged {b : Action} (hnone : ∀ key, b.executedAt? key = none) :
      e.debounce.Records (history ++ [b]) := by
    intro key
    have hnever : executions key [b] = [] := by simp [executions, hnone]
    rw [executions_append, hnever, List.append_nil]
    exact hrecords key
  cases hsettled with
  | handedOff _ _ hallowed | rolledOver _ hallowed => exact hrecords.stamp hallowed fun _ => rfl
  | suppressed | withdrawn | ignored | superseded => exact hunchanged fun _ => rfl
  | unvoiced => exact absurd rfl hvoiced

end Debounce.Records

namespace Moment

theorem Step.records {audio : AudioConfig} (hvalid : audio.validate = .ok ()) {m n : Moment}
    (hstep : Step m n) (haccounted : m.Accounted audio)
    (hrecords : m.engine.debounce.Records m.history) : n.engine.debounce.Records n.history := by
  cases hstep with
  | setClock | request | takeUp | fire | drop | claim | claimDue | reorder => exact hrecords
  | settle hsettled =>
    refine hrecords.settle hsettled ?_
    rintro rfl
    obtain ⟨hsound, rfl, -, -, -⟩ := haccounted
    cases hsettled.fits hvalid (hsound.proper _ List.mem_cons_self)
  | cancelAll | enrol => exact hrecords.note rfl
  | note _ _ _ hnote => exact hrecords.note hnote.1

end Moment

/-- In a claim's last minute, or before its last execution on a clock that was set back. -/
def Engine.TooEarly (e : Engine) (key : String) (history : List Action) : Prop :=
  ∃ last, (executions key history).getLast? = some last ∧
    e.clock.millis - last.millis < Debounce.windowMillis

/-- A claim ends without consequences. -/
structure Outcome.Refuses (o : Outcome) (e : Engine) (r : Registration) (a : Action) : Prop where
  refused : (∃ elapsed, a = .suppressed r elapsed) ∨ (∃ cause, a = .withdrawn r cause) ∨
    (r.event.kind = .rollover ∧ a = .superseded r)
  unexecuted : executions r.key o.actions = []
  memory : o.engine.debounce.lastRun? r.key = e.debounce.lastRun? r.key

/-- A proper claim that is not allowed to run is refused, and the memory stays. -/
theorem Settlement.refused {e : Engine} {inputs : Inputs} {r : Registration} {d : Debounce Int}
    {a : Action} (hsettled : Settlement e inputs r d a) (hproper : r.event.Proper)
    (hrefused : ¬ e.debounce.allows r.key e.clock.millis) :
    ((∃ elapsed, a = .suppressed r elapsed) ∨ (∃ cause, a = .withdrawn r cause) ∨
      (r.event.kind = .rollover ∧ a = .superseded r)) ∧ d = e.debounce := by
  cases hsettled with
  | handedOff _ _ hallowed | unvoiced _ hallowed | rolledOver _ hallowed =>
    exact absurd hallowed hrefused
  | suppressed => exact ⟨.inl ⟨_, rfl⟩, rfl⟩
  | withdrawn => exact ⟨.inr (.inl ⟨_, rfl⟩), rfl⟩
  | ignored hplays hnobody =>
    obtain ⟨p, -, hprayer⟩ := hproper.prayer_of_ne_rollover hplays
    rw [hnobody] at hprayer
    cases hprayer
  | superseded hrolls => exact ⟨.inr (.inr ⟨hrolls, rfl⟩), rfl⟩

namespace Engine

/-- Whatever was executed long enough ago, a rebuild refuses the claims that come too early. -/
theorem refuses_rebuild {e : Engine} {reports : List Fire} (hbooks : e.registry.Consistent reports)
    {inputs : Inputs} {a : Action} {r : Registration} (hdone : a ∈ (e.rebuild inputs).actions)
    (hsettles : a.settles? = some r) (hrefused : ¬ e.debounce.allows r.key e.clock.millis) :
    (e.rebuild inputs).Refuses e r a := by
  obtain ⟨hclaimed, halone⟩ := settleDue_of_mem_actions_rebuild hbooks hdone hsettles
  obtain ⟨d, b, hsettled, -, houtcome⟩ := settleDue_settles e.claimDue.2 inputs r
  have : b = a := by
    rw [houtcome] at halone
    exact List.singleton_inj.1 halone
  subst this
  have hlive := (mem_claimDue hbooks.distinct hclaimed).1
  obtain ⟨hhow, rfl⟩ := hsettled.refused (hbooks.proper r hlive) (by rwa [clock_claimDue])
  refine ⟨hhow, executions_eq_nil fun c hc => ?_, ?_⟩
  · -- Only a claim under the key could be executed under it, and `r` is the only one.
    by_contra hexecuted
    obtain ⟨now, hexecuted⟩ := Option.ne_none_iff_exists'.1 hexecuted
    obtain ⟨g, hsettlesToo, hsame⟩ := Action.key_eq_of_executedAt? hexecuted
    obtain ⟨hclaimed', halone'⟩ := settleDue_of_mem_actions_rebuild hbooks hc hsettlesToo
    have : g = r := List.inj_on_of_nodup_map (nodup_map_key_claimDue hbooks) hclaimed' hclaimed
      hsame
    subst this
    have : c = b := List.singleton_inj.1 (halone'.symm.trans halone)
    subst this
    rcases hhow with ⟨elapsed, rfl⟩ | ⟨cause, rfl⟩ | ⟨-, rfl⟩ <;> cases hexecuted
  · rw [lastRun?_rebuild_of_mem hbooks inputs hclaimed, houtcome]
    rfl

theorem Turn.refuses {e : Engine} (hbooks : e.registry.Consistent e.fires) {op : Operation}
    {o : Outcome} (hturn : e.Turn op o) {a : Action} {r : Registration} (hdone : a ∈ o.actions)
    (hsettles : a.settles? = some r) (hrefused : ¬ e.debounce.allows r.key e.clock.millis) :
    o.Refuses e r a ∧
      ∀ inputs fires, op = .next inputs → e.fires = r.fire :: fires →
        o.actions = [a] ∧ a ≠ .superseded r := by
  cases hturn with
  | rest _ _ hsilent =>
    rw [(hsilent a hdone).1] at hsettles
    cases hsettles
  | settle hwaiting hlive hsettled hreplaced =>
    have := List.mem_singleton.1 hdone
    subst this
    have := Option.some.inj (hsettled.settles_eq.symm.trans hsettles)
    subst this
    obtain ⟨hhow, rfl⟩ := hsettled.refused (hbooks.proper _ hlive) hrefused
    refine ⟨⟨hhow, executions_eq_nil fun c hc => ?_, rfl⟩, fun _ _ _ _ => ⟨rfl, ?_⟩⟩
    · rw [List.mem_singleton.1 hc]
      rcases hhow with ⟨elapsed, rfl⟩ | ⟨cause, rfl⟩ | ⟨-, rfl⟩ <;> rfl
    · rintro rfl
      rcases hhow with ⟨elapsed, hother⟩ | ⟨cause, hother⟩ | ⟨hrolls, -⟩
      · cases hother
      · cases hother
      · obtain ⟨elapsed, hother⟩ := hreplaced hrolls
        cases hother
  | @rebuild _ inputs commands lead _ hunreported hsilent =>
    have hdone : a ∈ (Engine.rebuild { e with commands } inputs).actions := by
      rcases List.mem_append.1 hdone with hearly | hlate
      · rw [(hsilent a hearly).1] at hsettles
        cases hsettles
      · exact hlate
    obtain ⟨hhow, hunexecuted, hmemory⟩ :=
      refuses_rebuild (e := { e with commands }) hbooks hdone hsettles hrefused
    refine ⟨⟨hhow, ?_, hmemory⟩, fun told fires hnext hwaiting => ?_⟩
    · rw [Outcome.actions_andThen, executions_append, hunexecuted, List.append_nil]
      exact executions_eq_nil fun c hc =>
        Action.executedAt?_of_settles_none (hsilent c hc).1 r.key
    · rw [hunreported told hnext] at hwaiting
      cases hwaiting
  | @rollOver inputs g fires hwaiting hlive hrolls hallowed =>
    rcases List.mem_cons.1 hdone with rfl | hdone
    · cases hsettles
      exact absurd hallowed hrefused
    · let f : Engine :=
        { e.claimed g fires with debounce := e.debounce.stamp g.key e.clock.millis }
      rw [hwaiting] at hbooks
      have hleft : f.registry.Consistent fires := hbooks.claim hlive
      -- The rollover has left the registry, so a claim of the rebuild has another key.
      have hclaimed := (settleDue_of_mem_actions_rebuild hleft hdone hsettles).1
      obtain ⟨hlive', hother⟩ := Registry.mem_remove.1 (mem_claimDue hleft.distinct hclaimed).1
      have hdifferent : r.key ≠ g.key := fun hsame =>
        hother (List.inj_on_of_nodup_map hbooks.keys_nodup hlive' hlive hsame)
      have hunstamped : f.debounce.lastRun? r.key = e.debounce.lastRun? r.key :=
        Debounce.lastRun?_stamp_of_ne _ hdifferent _
      have hrefused' : ¬ f.debounce.allows r.key f.clock.millis := by
        rwa [Debounce.allows_congr hunstamped]
      obtain ⟨hhow, hunexecuted, hmemory⟩ := refuses_rebuild hleft hdone hsettles hrefused'
      refine ⟨⟨hhow, ?_, hmemory.trans hunstamped⟩, fun _ fires' _ hwaiting' => ?_⟩
      · show executions r.key ([.rolledOver g e.clock] ++ _) = []
        rw [executions_append, hunexecuted, List.append_nil]
        exact executions_eq_nil fun c hc => by
          rw [List.mem_singleton.1 hc]
          exact if_neg hdifferent.symm
      · rw [hwaiting] at hwaiting'
        have hsame : g.fire = r.fire := (List.cons.inj hwaiting').1
        exact absurd (congrArg Fire.key hsame).symm hdifferent

theorem records_run {config : SchedulerConfig} {clock : Instant} {e : Engine}
    (hcreated : Engine.new config clock = .ok e) (ops : List Operation) :
    (e.run ops).engine.debounce.Records (e.run ops).actions := by
  have hsound := sound_new hcreated
  obtain ⟨hvalid, rfl⟩ := new_eq hcreated
  have hfiles := SchedulerConfig.validate_audio hvalid
  let P := fun m : Moment => m.Accounted config.audio ∧ m.engine.debounce.Records m.history
  have hkeeps {m n : Moment} (hstep : m.Step n) (h : P m) : P n :=
    ⟨hstep.accounted hfiles h.1, hstep.records hfiles h.1 h.2⟩
  refine ((leadsTo_run _ ops []).keep (P := P) hkeeps ⟨?_, fun key => ⟨rfl, .nil⟩⟩).2
  exact ⟨hsound, rfl, fun r => rfl, rfl, by simp⟩

/-- The executions of a key are a minute apart in every run, and the memory has the last one. Seen
turn by turn, a claim that comes too early is refused: nothing is executed under its key, its report
has no other effect, and the memory of the key stays. -/
theorem executions_apart {config : SchedulerConfig} {clock : Instant} {e : Engine}
    (hcreated : Engine.new config clock = .ok e) (ops : List Operation) :
    (∀ key, Apart (executions key (e.run ops).actions) ∧
      (e.run ops).engine.debounce.lastRun? key =
        (executions key (e.run ops).actions).getLast?.map Instant.millis) ∧
    e.run (e.unroll ops) = e.run ops ∧
    ∀ before op after, e.unroll ops = before ++ op :: after →
      ∀ a ∈ ((e.run before).engine.perform op).actions, ∀ r, a.settles? = some r →
        (e.run before).engine.TooEarly r.key (e.run before).actions →
        ((e.run before).engine.perform op).Refuses (e.run before).engine r a ∧
        ∀ inputs fires, op = .next inputs → (e.run before).engine.fires = r.fire :: fires →
          ((e.run before).engine.perform op).actions = [a] ∧ a ≠ .superseded r := by
  refine ⟨fun key => ?_, e.run_unroll ops, ?_⟩
  · obtain ⟨hlast, hapart⟩ := records_run hcreated ops key
    exact ⟨hapart, hlast⟩
  · rintro before op after hturns a hdone r hsettles ⟨last, hisLast, hearly⟩
    have hbooks := (sound_run hcreated before).books
    have hhere : op ∈ e.unroll ops := by
      rw [hturns]
      simp
    have hturn : op.IsTurn := isTurn_of_mem_unroll hhere
    refine (turn_perform hbooks hturn).refuses hbooks hdone hsettles fun hallowed => ?_
    have hremembered := (records_run hcreated before r.key).1
    rw [hisLast] at hremembered
    have hminute : last.millis + Debounce.windowMillis ≤ (e.run before).engine.clock.millis :=
      Debounce.le_of_allows hallowed hremembered
    omega

/-- The clock is set back to a second before the last announcement, and it is suppressed when it is
claimed again. -/
theorem executions_apart_set_back :
    ∃ e, Engine.new {} ⟨0, .utc⟩ = .ok e ∧ ∃ before op r, ∃ last : Instant,
      executions r.key (e.run before).actions = [last] ∧ (e.run before).engine.clock < last ∧
      ((e.run before).engine.perform op).actions = [.suppressed r (-1000)] ∧
      ((e.run before).engine.perform op).Refuses (e.run before).engine r
        (.suppressed r (-1000)) := by
  obtain ⟨e, hcreated⟩ : ∃ e, Engine.new {} ⟨0, .utc⟩ = .ok e := ⟨_, rfl⟩
  let inputs := Inputs.daily .maghrib ⟨1080, by decide⟩
  let last : Instant := ⟨63900000, .utc⟩
  let before : List Operation :=
    [.rebuild inputs, .advanceTo last, .next inputs, .setClock ⟨63800000, .utc⟩, .rebuild inputs,
      .advanceTo last, .setClock ⟨63899000, .utc⟩]
  let r : Registration := ⟨5, 5, .announcement .maghrib ⟨0⟩ ⟨1065, by decide⟩, last⟩
  have hstart := (new_eq hcreated).2
  have honce : executions r.key (e.run before).actions = [last] := by rw [hstart]; cbv
  have hclock : (e.run before).engine.clock = ⟨63899000, .utc⟩ := by rw [hstart]; cbv
  have hwaiting : (e.run before).engine.fires = [r.fire] := by rw [hstart]; cbv
  have hsecond : (e.run before).engine.registry.live[1]? = some r := by rw [hstart]; cbv
  have hlive := List.mem_of_getElem? hsecond
  have hran := (records_run hcreated before r.key).1
  rw [honce] at hran
  have hrefused : ¬ (e.run before).engine.debounce.allows r.key
      (e.run before).engine.clock.millis := by
    rw [Debounce.allows, hran, hclock]
    decide
  have hdone : ((e.run before).engine.perform (.next inputs)).actions =
      [.suppressed r (-1000)] := by
    have hclaim := handleFire_of_live (e := { (e.run before).engine with fires := [] })
      (sound_run hcreated before).books hlive inputs
    have hsuppressed := deliver_of_not_allows (e := (e.run before).engine.claimed r []) hrefused
    rw [perform, nextMessage?, hwaiting]
    show (handleFire { (e.run before).engine with fires := [] } inputs r.fire).actions = _
    rw [hclaim, if_neg (by decide)]
    show (deliver ((e.run before).engine.claimed r []) r).actions = _
    rw [hsuppressed]
    show [Action.suppressed r ((e.run before).engine.clock.millis -
      ((e.run before).engine.debounce.lastRun? r.key).getD _)] = _
    rw [hran, hclock]
    rfl
  obtain ⟨-, -, hrefuses⟩ := executions_apart hcreated (before ++ [.next inputs])
  have hearly : (e.run before).engine.TooEarly r.key (e.run before).actions :=
    ⟨last, by rw [honce]; rfl, by rw [hclock]; decide⟩
  have hturns : e.unroll (before ++ [.next inputs]) = before ++ .next inputs :: [] := by
    simp only [before, List.cons_append, List.nil_append, unroll, turnsOf]
  have hsettled := List.mem_singleton_self (Action.suppressed r (-1000))
  rw [← hdone] at hsettled
  have hback : (e.run before).engine.clock < last := by rw [hclock]; decide
  refine ⟨e, hcreated, before, .next inputs, r, last, honce, hback, hdone, ?_⟩
  exact (hrefuses before _ [] hturns _ hsettled r rfl hearly).1

end Engine

end Muezzin
