import Muezzin.Proofs.Perpetuity
import Muezzin.Proofs.Settling

/-!
# One message at a time

Handling all messages is handling one after another. So every run is also the run of a list of
turns, operations that handle one message at most, and the engine can be looked at between any two
of them. What a turn can do is said here once: it rests, it settles one claim, or it rebuilds, and
a rebuild may have been started by a rollover that the turn has claimed.
-/

namespace Muezzin

namespace Operation

def inputs? : Operation → Option Inputs
  | rebuild inputs => some inputs
  | next inputs => some inputs
  | process inputs => some inputs
  | _ => none

def IsTurn : Operation → Prop
  | process _ => False
  | _ => True

def Onward (clock : Instant) : Operation → Prop
  | setClock i => clock ≤ i
  | _ => True

end Operation

def Action.endsRebuild : Action → Bool
  | rebuilt _ _ _ _ => true
  | rebuildFailed _ => true
  | _ => false

namespace Engine

def turnsOf (e : Engine) : Operation → List Operation
  | .process inputs => List.replicate (e.processPending inputs).1 (.next inputs)
  | op => [op]

def unroll (e : Engine) : List Operation → List Operation
  | [] => []
  | op :: ops => e.turnsOf op ++ (e.perform op).engine.unroll ops

def Onward (e : Engine) : List Operation → Prop
  | [] => True
  | op :: ops => op.Onward e.clock ∧ (e.perform op).engine.Onward ops

theorem run_snoc (e : Engine) (ops : List Operation) (op : Operation) :
    e.run (ops ++ [op]) = (e.run ops).andThen (·.perform op) := by
  rw [run_append]
  simp [Outcome.andThen, run]

theorem perform_next_of_fires {e : Engine} {report : Fire} {fires : List Fire}
    (hwaiting : e.fires = report :: fires) (inputs : Inputs) :
    e.perform (.next inputs) = ({ e with fires } : Engine).handleFire inputs report := by
  rw [perform, nextMessage?, hwaiting]
  rfl

theorem perform_next_of_commands {e : Engine} {command : Command} {commands : List Command}
    (hunreported : e.fires = []) (hwaiting : e.commands = command :: commands)
    (inputs : Inputs) :
    e.perform (.next inputs) = ({ e with commands } : Engine).handleCommand inputs command := by
  rw [perform, nextMessage?, hunreported, hwaiting]
  rfl

theorem perform_next_of_idle {e : Engine} (hidle : e.nextMessage? = none) (inputs : Inputs) :
    e.perform (.next inputs) = ⟨e, []⟩ := by
  rw [perform, hidle]

theorem count_processPending {e rest : Engine} {message : Message}
    (hwaiting : e.nextMessage? = some (message, rest)) (inputs : Inputs) :
    (e.processPending inputs).1 =
      ((rest.handle inputs message).engine.processPending inputs).1 + 1 := by
  rw [processPending]
  split
  · next hidle =>
    rw [hwaiting] at hidle
    cases hidle
  · next other rest' hmessage =>
    rw [hwaiting] at hmessage
    cases hmessage
    rfl

theorem run_replicate_next (e : Engine) (inputs : Inputs) :
    e.run (List.replicate (e.processPending inputs).1 (.next inputs)) =
      (e.processPending inputs).2 := by
  match h : e.nextMessage? with
  | none =>
    rw [processPending_none h]
    rfl
  | some (message, rest) =>
    have hfirst : e.perform (.next inputs) = rest.handle inputs message := by
      rw [perform, h]
    rw [count_processPending h, processPending_some h, List.replicate_succ, run_cons, hfirst]
    simp only [Outcome.andThen, run_replicate_next (rest.handle inputs message).engine inputs]
termination_by e.queued
decreasing_by
  have := queued_nextMessage? h
  have := queued_handle_le rest inputs message
  omega

theorem run_turnsOf (e : Engine) (op : Operation) : e.run (e.turnsOf op) = e.perform op := by
  cases op with
  | process inputs => exact run_replicate_next e inputs
  | rebuild | clear | request | next | advanceTo | setClock =>
    simp [turnsOf, run, Outcome.andThen]

/-- The turns of a run lead where the run leads and do what it does. -/
theorem run_unroll (e : Engine) (ops : List Operation) : e.run (e.unroll ops) = e.run ops := by
  induction ops generalizing e with
  | nil => rfl
  | cons op ops ih =>
    rw [unroll, run_append, run_turnsOf, run_cons]
    simp only [Outcome.andThen, ih]

theorem isTurn_of_mem_unroll {e : Engine} {ops : List Operation} {op : Operation}
    (h : op ∈ e.unroll ops) : op.IsTurn := by
  induction ops generalizing e with
  | nil => cases h
  | cons first ops ih =>
    rcases List.mem_append.1 h with h | h
    · cases first with
      | process inputs =>
        rw [List.eq_of_mem_replicate h]
        trivial
      | rebuild | clear | request | next | advanceTo | setClock =>
        rw [List.mem_singleton.1 h]
        trivial
    · exact ih h

theorem onward_append {e : Engine} {before after : List Operation} :
    e.Onward (before ++ after) ↔ e.Onward before ∧ (e.run before).engine.Onward after := by
  induction before generalizing e with
  | nil => exact ⟨fun h => ⟨trivial, h⟩, And.right⟩
  | cons op before ih =>
    rw [List.cons_append, Onward, ih, Onward, and_assoc]
    rfl

theorem onward_turnsOf {e : Engine} {op : Operation} (honward : op.Onward e.clock) :
    e.Onward (e.turnsOf op) := by
  cases op with
  | process inputs =>
    have hgeneral (n : Nat) (e : Engine) : e.Onward (List.replicate n (.next inputs)) := by
      induction n generalizing e with
      | zero => trivial
      | succ n ih => exact ⟨trivial, ih _⟩
    exact hgeneral _ e
  | rebuild | clear | request | next | advanceTo | setClock => exact ⟨honward, trivial⟩

theorem onward_unroll {e : Engine} {ops : List Operation} (honward : e.Onward ops) :
    e.Onward (e.unroll ops) := by
  induction ops generalizing e with
  | nil => trivial
  | cons op ops ih =>
    obtain ⟨hfirst, hrest⟩ := honward
    rw [unroll, onward_append, run_turnsOf]
    exact ⟨onward_turnsOf hfirst, ih hrest⟩

/-- What one turn can do. -/
inductive Turn (e : Engine) : Operation → Outcome → Prop
  /-- Nothing is claimed and nothing is built. Reports come in only when they are due. -/
  | rest {op : Operation} {f : Engine} {actions : List Action}
      (hkept : ∀ r ∈ f.registry.live, r ∈ e.registry.live) (hmemory : f.debounce = e.debounce)
      (hsilent : ∀ a ∈ actions, a.settles? = none ∧ a.endsRebuild = false)
      (hreports : ∀ r ∈ f.registry.live, r.fire ∈ f.fires → r.fire ∈ e.fires ∨ r.due ≤ f.clock)
      (honward : op.Onward e.clock → e.clock ≤ f.clock) : Turn e op ⟨f, actions⟩
  /-- The first report claims a registration, and that is all that happens. -/
  | settle {inputs : Inputs} {r : Registration} {fires : List Fire} {d : Debounce Int} {a : Action}
      (hwaiting : e.fires = r.fire :: fires) (hlive : r ∈ e.registry.live)
      (hsettled : Settlement (e.claimed r fires) inputs r d a)
      (hreplaced : r.event.kind = .rollover → ∃ elapsed, a = .suppressed r elapsed) :
      Turn e (.next inputs) ⟨{ e.claimed r fires with debounce := d }, [a]⟩
  /-- The schedule is replaced on request. No report waits then, or the request would too. -/
  | rebuild {op : Operation} {inputs : Inputs} {commands : List Command} {lead : List Action}
      (hasks : op.inputs? = some inputs) (hunreported : ∀ told, op = .next told → e.fires = [])
      (hsilent : ∀ a ∈ lead, a.settles? = none ∧ a.endsRebuild = false) :
      Turn e op ((⟨{ e with commands }, lead⟩ : Outcome).andThen (Engine.rebuild · inputs))
  /-- The first report claims a rollover, which replaces the schedule. -/
  | rollOver {inputs : Inputs} {r : Registration} {fires : List Fire}
      (hwaiting : e.fires = r.fire :: fires) (hlive : r ∈ e.registry.live)
      (hrolls : r.event.kind = .rollover)
      (hallowed : e.debounce.allows r.key e.clock.millis) :
      Turn e (.next inputs)
        ((⟨{ e.claimed r fires with debounce := e.debounce.stamp r.key e.clock.millis },
          [.rolledOver r e.clock]⟩ : Outcome).andThen (Engine.rebuild · inputs))

theorem turn_handleFire {e : Engine} {report : Fire} {fires : List Fire}
    (hwaiting : e.fires = report :: fires) (inputs : Inputs) :
    e.Turn (.next inputs) (({ e with fires } : Engine).handleFire inputs report) := by
  rcases handleFire_cases { e with fires } inputs report with
    ⟨-, houtcome⟩ | ⟨r, hlive, rfl, ⟨hplays, d, a, hsettled, houtcome⟩ | ⟨hrolls, houtcome⟩⟩
  · rw [houtcome]
    refine .rest (fun _ h => h) rfl (by simp [Action.settles?, Action.endsRebuild])
      (fun r _ hreported => .inl ?_) fun _ => Instant.le_refl _
    rw [hwaiting]
    exact List.mem_cons_of_mem _ hreported
  · rw [houtcome]
    exact .settle hwaiting hlive hsettled fun hrolls => absurd hrolls hplays
  · have hsame : ({ e with fires } : Engine).registry.remove r = e.registry.remove r := rfl
    rw [houtcome]
    by_cases hallowed : e.debounce.allows r.key e.clock.millis
    · have hallowed' : (e.claimed r fires).debounce.allows r.key (e.claimed r fires).clock.millis :=
        hallowed
      show e.Turn _ ((e.claimed r fires).rollOver inputs r)
      rw [rollOver_of_allows hallowed']
      exact .rollOver hwaiting hlive hrolls hallowed
    · have hrefused :
          ¬ (e.claimed r fires).debounce.allows r.key (e.claimed r fires).clock.millis :=
        hallowed
      show e.Turn _ ((e.claimed r fires).rollOver inputs r)
      rw [rollOver_of_not_allows hrefused]
      exact .settle hwaiting hlive (.suppressed hrefused) fun _ => ⟨_, rfl⟩

theorem turn_perform {e : Engine} (hbooks : e.registry.Consistent e.fires) {op : Operation}
    (hturn : op.IsTurn) : e.Turn op (e.perform op) := by
  have hclears (commands : List Command) (actions : List Action)
      (hsilent : ∀ a ∈ actions, a.settles? = none ∧ a.endsRebuild = false) (op : Operation) :
      e.Turn op ⟨{ e with registry := e.registry.cancelAll.2, commands }, actions⟩ := by
    have hempty : e.registry.cancelAll.2.live = [] := Registry.live_cancelAll _
    refine .rest (fun r hr => ?_) rfl hsilent (fun r hr => ?_) fun _ => ?_
    · rw [hempty] at hr
      cases hr
    · rw [hempty] at hr
      cases hr
    · show e.clock ≤ (e.registry.dropAll _).timers.clock
      rw [Registry.dropAll_eq]
      exact Instant.le_refl _
  cases op with
  | process => exact absurd hturn id
  | rebuild inputs =>
    have hsilent : ∀ a ∈ ([] : List Action), a.settles? = none ∧ a.endsRebuild = false := by simp
    exact .rebuild rfl (fun _ h => by cases h) hsilent
  | clear => exact hclears e.commands _ (by simp [Action.settles?, Action.endsRebuild]) _
  | request command =>
    exact .rest (fun _ h => h) rfl (by simp) (fun _ _ h => .inl h) fun _ => Instant.le_refl _
  | setClock i => exact .rest (fun _ h => h) rfl (by simp) (fun _ _ h => .inl h) id
  | advanceTo target =>
    obtain ⟨honward, hfired⟩ := e.timers.advanceTo_spec target
    refine .rest (fun _ h => h) rfl (by simp) (fun r hr hreported => ?_) fun _ => honward
    rcases List.mem_append.1 hreported with hold | hnew
    · exact .inl hold
    · obtain ⟨timer, htimer, hsame⟩ := List.mem_map.1 hnew
      obtain ⟨hwaited, hdue⟩ := hfired timer htimer
      obtain ⟨g, hg, rfl⟩ := hbooks.owned timer hwaited
      have : g = r := hbooks.eq_of_fire_eq hg hr hsame
      exact .inr (this ▸ hdue)
  | next inputs =>
    rw [perform]
    unfold nextMessage?
    split
    · next message rest hwaiting =>
      split at hwaiting
      · next report fires hfires =>
        cases hwaiting
        exact turn_handleFire hfires inputs
      · next command commands hfires hcommands =>
        cases hwaiting
        cases command with
        | reschedule reason =>
          have hsilent : ∀ a ∈ [Action.rescheduling reason],
              a.settles? = none ∧ a.endsRebuild = false := by
            simp [Action.settles?, Action.endsRebuild]
          exact .rebuild rfl (fun _ _ => hfires) hsilent
        | clear => exact hclears commands _ (by simp [Action.settles?, Action.endsRebuild]) _
      · cases hwaiting
    · exact .rest (fun _ h => h) rfl (by simp) (fun _ _ h => .inl h) fun _ => Instant.le_refl _

end Engine

end Muezzin
