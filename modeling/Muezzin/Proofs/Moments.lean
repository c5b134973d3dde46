import Mathlib.Logic.Relation
import Muezzin.Proofs.RegistryOps
import Muezzin.Proofs.Runs
import Muezzin.Proofs.ScheduleKeys

/-!
# An engine from moment to moment

Between the beginning and the end of an operation an engine has claimed registrations in hand that
it has not settled yet. A moment is the engine together with these claims and with everything it
has done so far. It goes on in small steps, each of which touches one thing: a report is dropped or
claimed, a claim is settled, one event is registered, the clock is set. Every operation is a chain
of such steps that ends with empty hands, so what every small step keeps is true after every run.
-/

namespace Muezzin

namespace Debounce

variable {τ : Type}

def stamp (d : Debounce τ) (key : String) (now : τ) : Debounce τ :=
  ⟨d.lastRuns.insert key now⟩

variable [Sub τ] [LE τ] [DecidableLE τ] [OfNat τ 60000]

theorem ask_of_allows {d : Debounce τ} {key : String} {now : τ} (h : d.allows key now) :
    d.ask key now = (true, d.stamp key now) :=
  if_pos h

theorem ask_of_not_allows {d : Debounce τ} {key : String} {now : τ} (h : ¬ d.allows key now) :
    d.ask key now = (false, d) :=
  if_neg h

end Debounce

namespace Action

def settles? : Action → Option Registration
  | rolledOver r _ => some r
  | superseded r => some r
  | suppressed r _ => some r
  | withdrawn r _ => some r
  | ignored r => some r
  | unvoiced r => some r
  | handedOff r _ _ => some r
  | _ => none

def cancels : Action → List Registration
  | cancelled rs => rs
  | _ => []

def arms? : Action → Option Registration
  | armed r => some r
  | _ => none

/-- The action neither makes a registration nor ends one. -/
def IsNote (a : Action) : Prop :=
  a.settles? = none ∧ a.cancels = [] ∧ a.arms? = none

end Action

/-- What a claimed registration can come to: the memory of recent runs afterwards, and the action
that settles it. -/
inductive Settlement (e : Engine) (inputs : Inputs) (r : Registration) :
    Debounce Int → Action → Prop
  | handedOff {file : String} (hplays : r.event.kind ≠ .rollover)
      (hwanted : r.event.kind = .announcement →
        ∃ p, r.event.prayer = some p ∧ inputs.withdrawal? p = none)
      (hallowed : e.debounce.allows r.key e.clock.millis)
      (hvoiced : e.audio.fileFor r.event = some file) :
      Settlement e inputs r (e.debounce.stamp r.key e.clock.millis) (.handedOff r file e.clock)
  | unvoiced (hplays : r.event.kind ≠ .rollover)
      (hallowed : e.debounce.allows r.key e.clock.millis)
      (hsilent : e.audio.fileFor r.event = none) :
      Settlement e inputs r (e.debounce.stamp r.key e.clock.millis) (.unvoiced r)
  | suppressed (hrefused : ¬ e.debounce.allows r.key e.clock.millis) :
      Settlement e inputs r e.debounce
        (.suppressed r (e.clock.millis - (e.debounce.lastRun? r.key).getD e.clock.millis))
  | withdrawn {p : Prayer} {cause : Withdrawal} (hannounced : r.event.kind = .announcement)
      (hprayer : r.event.prayer = some p) (hoff : inputs.withdrawal? p = some cause) :
      Settlement e inputs r e.debounce (.withdrawn r cause)
  | ignored (hplays : r.event.kind ≠ .rollover) (hnone : r.event.prayer = none) :
      Settlement e inputs r e.debounce (.ignored r)
  | superseded (hrolls : r.event.kind = .rollover) :
      Settlement e inputs r e.debounce (.superseded r)
  | rolledOver (hrolls : r.event.kind = .rollover)
      (hallowed : e.debounce.allows r.key e.clock.millis) :
      Settlement e inputs r (e.debounce.stamp r.key e.clock.millis) (.rolledOver r e.clock)

theorem Settlement.settles_eq {e : Engine} {inputs : Inputs} {r : Registration} {d : Debounce Int}
    {a : Action} (h : Settlement e inputs r d a) : a.settles? = some r := by
  cases h <;> rfl

theorem Settlement.cancels_eq {e : Engine} {inputs : Inputs} {r : Registration} {d : Debounce Int}
    {a : Action} (h : Settlement e inputs r d a) : a.cancels = [] := by
  cases h <;> rfl

theorem Settlement.arms_eq {e : Engine} {inputs : Inputs} {r : Registration} {d : Debounce Int}
    {a : Action} (h : Settlement e inputs r d a) : a.arms? = none := by
  cases h <;> rfl

namespace Engine

theorem deliver_settles {e : Engine} (inputs : Inputs) {r : Registration}
    (hplays : r.event.kind ≠ .rollover)
    (hwanted : r.event.kind = .announcement →
      ∃ p, r.event.prayer = some p ∧ inputs.withdrawal? p = none) :
    ∃ d a, Settlement e inputs r d a ∧ e.deliver r = ⟨{ e with debounce := d }, [a]⟩ := by
  by_cases hallowed : e.debounce.allows r.key e.clock.millis
  · cases hvoice : e.audio.fileFor r.event with
    | some file =>
      refine ⟨_, _, .handedOff hplays hwanted hallowed hvoice, ?_⟩
      simp [deliver, Debounce.ask_of_allows hallowed, hvoice]
    | none =>
      refine ⟨_, _, .unvoiced hplays hallowed hvoice, ?_⟩
      simp [deliver, Debounce.ask_of_allows hallowed, hvoice]
  · refine ⟨_, _, .suppressed hallowed, ?_⟩
    simp [deliver, Debounce.ask_of_not_allows hallowed, suppress]

theorem notify_settles {e : Engine} (inputs : Inputs) {r : Registration}
    (hplays : r.event.kind ≠ .rollover) :
    ∃ d a, Settlement e inputs r d a ∧ e.notify inputs r = ⟨{ e with debounce := d }, [a]⟩ := by
  unfold notify
  split
  · next _ hprayer => exact ⟨_, _, .ignored hplays hprayer, rfl⟩
  · next p hprayer hkind =>
    split
    · next cause hoff => exact ⟨_, _, .withdrawn hkind hprayer hoff, rfl⟩
    · next hon => exact deliver_settles inputs hplays fun _ => ⟨p, hprayer, hon⟩
  · next p hprayer hkind =>
    exact deliver_settles inputs hplays fun hannounced => absurd hannounced hkind

/-- What a rebuild has claimed is settled by one action, and a rollover is superseded. -/
theorem settleDue_settles (e : Engine) (inputs : Inputs) (r : Registration) :
    ∃ d a, Settlement e inputs r d a ∧ (r.event.kind = .rollover → a = .superseded r) ∧
      settleDue inputs r e = ⟨{ e with debounce := d }, [a]⟩ := by
  unfold settleDue
  split
  · next hrolls => exact ⟨_, _, .superseded hrolls, fun _ => rfl, rfl⟩
  · next hplays =>
    obtain ⟨d, a, hsettled, houtcome⟩ := notify_settles (e := e) inputs hplays
    exact ⟨d, a, hsettled, fun hrolls => absurd hrolls hplays, houtcome⟩

theorem rollOver_of_allows {e : Engine} {r : Registration}
    (hallowed : e.debounce.allows r.key e.clock.millis) (inputs : Inputs) :
    e.rollOver inputs r =
      (⟨{ e with debounce := e.debounce.stamp r.key e.clock.millis },
        [.rolledOver r e.clock]⟩ : Outcome).andThen (rebuild · inputs) := by
  rw [rollOver, Debounce.ask_of_allows hallowed]
  rfl

theorem rollOver_of_not_allows {e : Engine} {r : Registration}
    (hrefused : ¬ e.debounce.allows r.key e.clock.millis) (inputs : Inputs) :
    e.rollOver inputs r = e.suppress r := by
  rw [rollOver, Debounce.ask_of_not_allows hrefused]
  rfl

/-- A report matches nothing, or it claims an event that is settled by one action, or it claims a
rollover. -/
theorem handleFire_cases (e : Engine) (inputs : Inputs) (report : Fire) :
    ((∀ r ∈ e.registry.live, r.fire ≠ report) ∧
      e.handleFire inputs report = ⟨e, [.stale report]⟩) ∨
    ∃ r ∈ e.registry.live, r.fire = report ∧
      ((r.event.kind ≠ .rollover ∧
        ∃ d a, Settlement { e with registry := e.registry.remove r } inputs r d a ∧
          e.handleFire inputs report =
            ⟨{ e with registry := e.registry.remove r, debounce := d }, [a]⟩) ∨
      (r.event.kind = .rollover ∧ e.handleFire inputs report =
        rollOver { e with registry := e.registry.remove r } inputs r)) := by
  unfold handleFire
  rcases e.registry.takeFired_cases report with ⟨r, hlive, hsame, htaken⟩ | ⟨hstale, htaken⟩
  · rw [htaken]
    refine .inr ⟨r, hlive, hsame, ?_⟩
    by_cases hrolls : r.event.kind = .rollover
    · exact .inr ⟨hrolls, if_pos hrolls⟩
    · obtain ⟨d, a, hsettled, houtcome⟩ :=
        notify_settles (e := { e with registry := e.registry.remove r }) inputs hrolls
      exact .inl ⟨hrolls, d, a, hsettled, (if_neg hrolls).trans houtcome⟩
  · rw [htaken]
    exact .inl ⟨hstale, rfl⟩

end Engine

/-- An engine in the middle of an operation. -/
structure Moment where
  engine : Engine
  hand : List Registration := []
  history : List Action := []

namespace Moment

/-- The small steps of which every operation consists. -/
inductive Step : Moment → Moment → Prop
  | setClock (e : Engine) (hand : List Registration) (history : List Action) (i : Instant) :
      Step ⟨e, hand, history⟩ ⟨e.setClock i, hand, history⟩
  | request (e : Engine) (hand : List Registration) (history : List Action) (command : Command) :
      Step ⟨e, hand, history⟩ ⟨e.request command, hand, history⟩
  | takeUp {e : Engine} {hand : List Registration} {history : List Action} {command : Command}
      {commands : List Command} (hwaiting : e.commands = command :: commands) :
      Step ⟨e, hand, history⟩ ⟨{ e with commands }, hand, history⟩
  | fire {e : Engine} {hand : List Registration} {history : List Action} {target : Instant}
      {timer : Timer Fire} {timers : Timeline Fire}
      (hpopped : e.timers.popDue? target = some (timer, timers)) :
      Step ⟨e, hand, history⟩
        ⟨{ e with
            registry := e.registry.withTimers timers
            fires := e.fires ++ [timer.payload] }, hand, history⟩
  | drop {e : Engine} {hand : List Registration} {history : List Action} {report : Fire}
      {fires : List Fire} (hwaiting : e.fires = report :: fires)
      (hstale : ∀ r ∈ e.registry.live, r.fire ≠ report) :
      Step ⟨e, hand, history⟩ ⟨{ e with fires }, hand, history⟩
  | claim {e : Engine} {hand : List Registration} {history : List Action} {r : Registration}
      {fires : List Fire} (hwaiting : e.fires = r.fire :: fires) (hlive : r ∈ e.registry.live) :
      Step ⟨e, hand, history⟩
        ⟨{ e with registry := e.registry.remove r, fires }, hand ++ [r], history⟩
  | claimDue (e : Engine) (hand : List Registration) (history : List Action) :
      Step ⟨e, hand, history⟩
        ⟨{ e with registry := (e.registry.takeDue e.clock).2 },
          hand ++ (e.registry.takeDue e.clock).1, history⟩
  | reorder (e : Engine) {hand hand' : List Registration} (history : List Action)
      (hsame : hand.Perm hand') : Step ⟨e, hand, history⟩ ⟨e, hand', history⟩
  | settle {e : Engine} {inputs : Inputs} {r : Registration} {hand : List Registration}
      {history : List Action} {d : Debounce Int} {a : Action}
      (hsettled : Settlement e inputs r d a) :
      Step ⟨e, r :: hand, history⟩ ⟨{ e with debounce := d }, hand, history ++ [a]⟩
  | cancelAll (e : Engine) (hand : List Registration) (history : List Action) :
      Step ⟨e, hand, history⟩
        ⟨e.clear.2.engine, hand, history ++ [.cancelled e.registry.listing]⟩
  | enrol {e : Engine} {hand : List Registration} {history : List Action} {event : Event}
      (due : Instant) (hproper : event.Proper)
      (hfree : ∀ r ∈ e.registry.live, r.key ≠ event.key) :
      Step ⟨e, hand, history⟩
        ⟨{ e with registry := e.registry.enrol (e.registry.upcoming event due) }, hand,
          history ++ [.armed (e.registry.upcoming event due)]⟩
  | note (e : Engine) (hand : List Registration) (history : List Action) {a : Action}
      (hnote : a.IsNote) : Step ⟨e, hand, history⟩ ⟨e, hand, history ++ [a]⟩

abbrev Steps : Moment → Moment → Prop :=
  Relation.ReflTransGen Step

theorem Steps.keep {P : Moment → Prop} (hkeeps : ∀ {m n : Moment}, Step m n → P m → P n)
    {m n : Moment} (hsteps : Steps m n) (hstart : P m) : P n := by
  induction hsteps with
  | refl => exact hstart
  | tail _ hstep ih => exact hkeeps hstep ih

end Moment

end Muezzin
