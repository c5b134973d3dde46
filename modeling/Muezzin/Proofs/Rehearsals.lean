import Muezzin.Proofs.Runs
import Muezzin.Rehearsal.Basic

/-!
# Rehearsals are runs

Whatever is done by hand to a rehearsal, whether it reaches the engine or only changes what the
engine is told, its engine is where some run of operations leads. So what is true of every run is
true of every rehearsal.
-/

namespace Muezzin

def Engine.Leads (e f : Engine) : Prop :=
  ∃ ops, f = (e.run ops).engine

namespace Engine.Leads

theorem refl (e : Engine) : e.Leads e :=
  ⟨[], rfl⟩

theorem trans {e f g : Engine} (hfirst : e.Leads f) (hsecond : f.Leads g) : e.Leads g := by
  obtain ⟨before, rfl⟩ := hfirst
  obtain ⟨after, rfl⟩ := hsecond
  exact ⟨before ++ after, (e.engine_run_append before after).symm⟩

theorem single (e : Engine) (op : Operation) : e.Leads (e.perform op).engine :=
  ⟨[op], rfl⟩

end Engine.Leads

namespace Rehearsal

theorem leads_apply (r : Rehearsal) (s : Stimulus) : r.engine.Leads (r.apply true s).2.engine := by
  cases s with
  | timersTo target => exact .single _ (.advanceTo target)
  | timersBy millis => exact .single _ (.advanceTo (r.engine.clock.addMillis millis))
  | fireDue => exact .single _ (.advanceTo r.engine.clock)
  | setClock i => exact .single _ (.setClock i)
  | reschedule reason => exact .single _ (.request (.reschedule reason))
  | requestClear => exact .single _ (.request .clear)
  | setSettings | setFlags | notify | insert | setDefault | clearTimes | fault | write
  | closeEvents => exact .refl _

theorem leads_advanceTo (r : Rehearsal) (target : Instant) :
    r.engine.Leads (r.advanceTo target).2.engine := by
  have hfired : r.engine.Leads (r.advanceTimers target).2.engine := .single _ (.advanceTo target)
  exact hfired.trans (.single _ (.process (r.advanceTimers target).2.inputs))

theorem leads_perform (r : Rehearsal) (op : HandOperation) :
    r.engine.Leads (r.perform op).2.engine := by
  cases op with
  | stimulus s => exact leads_apply r s
  | rebuild => exact .single _ (.rebuild r.inputs)
  | clear => exact .single _ .clear
  | process => exact .single _ (.process r.inputs)
  | runDeliveries => exact .refl _
  | advanceTo target => exact leads_advanceTo r target
  | advance millis => exact leads_advanceTo r _
  | next =>
    rw [perform, next?]
    cases r.engine.timers.nextDue? with
    | none => exact .refl _
    | some due => exact leads_advanceTo r due

/-- The engine of a rehearsal is where some run leads. -/
theorem leads_foldl (r : Rehearsal) (ops : List HandOperation) :
    r.engine.Leads (ops.foldl (fun r op => (r.perform op).2) r).engine := by
  induction ops generalizing r with
  | nil => exact .refl _
  | cons op ops ih => exact (leads_perform r op).trans (ih _)

end Rehearsal

end Muezzin
