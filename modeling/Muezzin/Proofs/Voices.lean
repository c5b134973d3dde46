import Muezzin.Host.Clock
import Muezzin.Proofs.Backlog
import Muezzin.Proofs.Fates

/-!
# A valid configuration is enough

Whatever is asked of a configuration after the check can be had: an engine can be made, it has a
zone, and every event of every schedule that plays has a file with a name. So whatever is done to an
engine, by hand and in sessions of the loop, it drops no event that it has claimed because there is
nothing to play. The check itself lets one offset through that it should not: the least number of 32
bits, which is taken for UTC.
-/

namespace Muezzin

theorem Engine.new_eq_error_iff {config : SchedulerConfig} {clock : Instant} {e : Error} :
    Engine.new config clock = .error e ↔ config.validate = .error e := by
  rw [Engine.new]
  cases config.validate with
  | error d => exact ⟨fun hfailed => by cases hfailed; rfl, fun hfailed => by cases hfailed; rfl⟩
  | ok u => exact ⟨nofun, nofun⟩

theorem Engine.exists_new_iff {config : SchedulerConfig} {clock : Instant} :
    (∃ e, Engine.new config clock = .ok e) ↔ config.validate = .ok () := by
  refine ⟨fun ⟨e, hcreated⟩ => (new_eq hcreated).1, fun hvalid => ?_⟩
  rw [Engine.new, hvalid]
  exact ⟨_, rfl⟩

/-! ### What an engine does in its life -/

/-- No claim ends for want of a file, and what is played has a name. -/
def Action.IsVoiced : Action → Prop
  | .unvoiced _ => False
  | .handedOff _ file _ => file ≠ ""
  | _ => True

theorem Action.isVoiced_of_settles_none {a : Action} (hnote : a.settles? = none) : a.IsVoiced := by
  cases a with
  | unvoiced | handedOff => cases hnote
  | _ => trivial

theorem Settlement.isVoiced {e : Engine} {inputs : Inputs} {r : Registration} {d : Debounce Int}
    {a : Action} (hsettled : Settlement e inputs r d a) (hnamed : e.audio.Named)
    (hproper : r.event.Proper) : a.IsVoiced := by
  cases hsettled with
  | handedOff hplays _ _ hvoiced =>
    obtain ⟨file, hfound, hname⟩ := (hnamed.fileFor hproper).2 hplays
    rw [hvoiced] at hfound
    cases hfound
    exact hname
  | unvoiced hplays _ hsilent =>
    obtain ⟨file, hfound, -⟩ := (hnamed.fileFor hproper).2 hplays
    rw [hsilent] at hfound
    cases hfound
  | suppressed | withdrawn | ignored | superseded | rolledOver => trivial

/-- The books are kept, and whatever has been played had a file with a name. -/
structure Moment.Voiced (audio : AudioConfig) (m : Moment) : Prop where
  sound : m.Sound
  audio : m.engine.audio = audio
  voiced : ∀ a ∈ m.history, a.IsVoiced

theorem Moment.Step.voiced {audio : AudioConfig} (hnamed : audio.Named) {m n : Moment}
    (hstep : Step m n) (h : m.Voiced audio) : n.Voiced audio := by
  have hsound := hstep.sound h.sound
  obtain ⟨⟨-, hproper, -⟩, rfl, hvoiced⟩ := h
  have hsnoc {history : List Action} {a : Action} (hold : ∀ b ∈ history, b.IsVoiced)
      (hnew : a.IsVoiced) : ∀ b ∈ history ++ [a], b.IsVoiced :=
    List.forall_mem_append.2 ⟨hold, List.forall_mem_singleton.2 hnew⟩
  cases hstep with
  | setClock | request | takeUp | fire | drop | claim | claimDue | reorder =>
    exact ⟨hsound, rfl, hvoiced⟩
  | settle hsettled =>
    exact ⟨hsound, rfl, hsnoc hvoiced (hsettled.isVoiced hnamed (hproper _ List.mem_cons_self))⟩
  | cancelAll | enrol => exact ⟨hsound, rfl, hsnoc hvoiced trivial⟩
  | note _ _ _ hnote => exact ⟨hsound, rfl, hsnoc hvoiced (Action.isVoiced_of_settles_none hnote.1)⟩

namespace Session

variable {audio : AudioConfig} {s : Session} {history : List Action}

def outcome (s : Session) (hs : List Happening) : Outcome :=
  ⟨(s.after hs).engine, s.actions hs⟩

theorem voiced_next (hnamed : audio.Named) (h : Moment.Voiced audio ⟨s.engine, [], history⟩)
    (happens : Happening) :
    Moment.Voiced audio ⟨(s.next happens).engine, [], history ++ (s.perform happens).2⟩ := by
  cases happens with
  | turn told => exact (leadsTo_turn s told history).keep (Moment.Step.voiced hnamed) h
  | setPrayers | setFlags | notify | signal => exact (List.append_nil history).symm ▸ h
  | request command =>
    exact (List.append_nil history).symm ▸ (Moment.Step.request _ _ _ command).voiced hnamed h
  | setClock i =>
    exact (List.append_nil history).symm ▸ (Moment.Step.setClock _ _ _ i).voiced hnamed h
  | fire timer =>
    show Moment.Voiced audio ⟨s.engine.fire timer, [], history ++ []⟩
    rw [List.append_nil, Engine.fire]
    split
    · next hwaits =>
      exact ⟨⟨h.sound.books.report hwaits, h.sound.proper, h.sound.known⟩, h.audio, h.voiced⟩
    · exact h

theorem voiced_outcome (hnamed : audio.Named) (h : Moment.Voiced audio ⟨s.engine, [], history⟩)
    (hs : List Happening) :
    Moment.Voiced audio ⟨(s.outcome hs).engine, [], history ++ (s.outcome hs).actions⟩ := by
  induction hs generalizing s history with
  | nil => exact (List.append_nil history).symm ▸ h
  | cons happens hs ih =>
    have hrest := ih (voiced_next hnamed h happens)
    rwa [List.append_assoc] at hrest

end Session

/-- What becomes of an engine by hand and in sessions, one after another, and what it does. -/
inductive Engine.Lives (e : Engine) : Outcome → Prop
  | new : Lives e ⟨e, []⟩
  | run {o : Outcome} (hlives : Lives e o) (ops : List Operation) : Lives e (o.andThen (·.run ops))
  | session {o : Outcome} (hlives : Lives e o) (settings : MemorySettings) (hs : List Happening) :
      Lives e (o.andThen fun f => (Session.enter f settings).outcome hs)

theorem Engine.Lives.voiced {audio : AudioConfig} (hnamed : audio.Named) {e : Engine} {o : Outcome}
    (hstart : Moment.Voiced audio ⟨e, [], []⟩) (hlives : e.Lives o) :
    Moment.Voiced audio ⟨o.engine, [], o.actions⟩ := by
  induction hlives with
  | new => exact hstart
  | run _ ops ih => exact (leadsTo_run _ ops _).keep (Moment.Step.voiced hnamed) ih
  | session _ settings hs ih =>
    exact Session.voiced_outcome (s := Session.enter _ settings) hnamed ih hs

namespace SchedulerConfig

variable {config : SchedulerConfig}

theorem audio_named (hvalid : config.validate = .ok ()) : config.audio.Named :=
  AudioConfig.named_of_validate (validate_audio hvalid)

theorem voiced_of_lives (hvalid : config.validate = .ok ()) {clock : Instant} {engine : Engine}
    (hcreated : Engine.new config clock = .ok engine) {o : Outcome} (hlives : engine.Lives o) :
    ∀ a ∈ o.actions, a.IsVoiced := by
  have hsound := Engine.sound_new hcreated
  obtain ⟨-, rfl⟩ := Engine.new_eq hcreated
  exact (hlives.voiced (audio_named hvalid) ⟨hsound, rfl, by simp⟩).voiced

/-- A configuration is valid if nothing is wrong with it, and otherwise the first section with a
fault decides the error. An engine is made of the valid ones, and for the others there is the same
error. A valid configuration has a zone, which is that of its offset, and a file with a name for
every event of every schedule, but none for rollovers. Whatever becomes of an engine that is made of
it, no claim ends for want of a file. The offset without an absolute value is left out, in the first
place and where the zone is that of the offset. -/
theorem validated_usable (config : SchedulerConfig) :
    (config.engine.utcOffsetMinutes ≠ Int32.minValue →
      (config.validate = .ok () ↔ config.Sensible) ∧
      ∀ e, config.validate = .error e ↔
        ∃ s, IsFirst (fun t => ∃ f, config.Fault t f) Section.inOrder s ∧ config.Fault s e) ∧
    (∀ clock e, Engine.new config clock = .error e ↔ config.validate = .error e) ∧
    (∀ clock, (∃ engine, Engine.new config clock = .ok engine) ↔ config.validate = .ok ()) ∧
    (config.validate = .ok () →
      (∃ zone, config.engine.zone = .ok zone ∧
        (config.engine.utcOffsetMinutes ≠ Int32.minValue →
          zone = .ofMinutes config.engine.utcOffsetMinutes.toInt)) ∧
      (∀ times settings flags now rolloverTime,
        let schedule := DailySchedule.build times settings flags now rolloverTime
        ∀ e ∈ schedule.events ++ schedule.skipped,
          (e.kind = .rollover → config.audio.fileFor e = none) ∧
          (e.kind ≠ .rollover → ∃ file, config.audio.fileFor e = some file ∧ file ≠ "")) ∧
      ∀ clock engine, Engine.new config clock = .ok engine → ∀ o, engine.Lives o →
        (∀ r, .unvoiced r ∉ o.actions) ∧
        ∀ r file now, .handedOff r file now ∈ o.actions → file ≠ "") := by
  refine ⟨fun hsigned => ⟨validate_iff hsigned, fun e => validate_eq_error_iff hsigned⟩,
    fun _ _ => Engine.new_eq_error_iff, fun _ => Engine.exists_new_iff, fun hvalid => ⟨?_, ?_, ?_⟩⟩
  · obtain ⟨zone, hfound⟩ := exists_zone hvalid
    refine ⟨zone, hfound, fun hsigned => ?_⟩
    rcases EngineConfig.zone_eq_ok_iff.1 hfound with ⟨-, hsame⟩ | ⟨hleast, -⟩
    · exact hsame.symm
    · exact absurd hleast hsigned
  · intro times settings flags now rolloverTime schedule e he
    refine (audio_named hvalid).fileFor ?_
    rcases List.mem_append.1 he with hlisted | hskipped
    · exact DailySchedule.proper_of_mem_events _ _ _ _ _ hlisted
    · exact DailySchedule.proper_of_mem_skipped _ _ _ _ _ hskipped
  · intro clock engine hcreated o hlives
    have hvoiced := voiced_of_lives hvalid hcreated hlives
    exact ⟨fun r => hvoiced _, fun r file now => hvoiced _⟩

/-- Without a name for the player the notifier is at fault, and with one a day goes by in which no
claim ends for want of a file. -/
theorem validated_usable_player :
    let config (program : String) : SchedulerConfig :=
      { notifier := .command program [] none, engine := { utcOffsetMinutes := -840 } }
    let calls := Inputs.daily .asr ⟨920, by decide⟩
    let day : List Operation := [.rebuild calls, .advanceTo ⟨86400000, .utc⟩, .process calls]
    (config "").engine.utcOffsetMinutes ≠ Int32.minValue ∧
      (config "").validate = .error .emptyPlayer ∧
      (config "mpg123").validate = .ok () ∧
      ∃ engine, Engine.new (config "mpg123") ⟨0, .utc⟩ = .ok engine ∧
        ∀ r, .unvoiced r ∉ (engine.run day).actions := by
  intro config calls day
  have hsigned : (config "").engine.utcOffsetMinutes ≠ Int32.minValue := by decide
  have hfault : (config "").Fault .notifier .emptyPlayer := .notifier rfl
  have hnoSource : ¬ ∃ f, (config "").Fault .source f := by
    rintro ⟨_, _ | _⟩
    contradiction
  have hnoStore : ¬ ∃ f, (config "").Fault .store f := by
    rintro ⟨_, _ | _⟩
    contradiction
  have hfirst : IsFirst (fun t => ∃ f, (config "").Fault t f) Section.inOrder .notifier :=
    .later hnoSource (.later hnoStore (.here ⟨_, hfault⟩))
  have hvalid : (config "mpg123").validate = .ok () := by decide
  obtain ⟨engine, hcreated⟩ := ((validated_usable (config "mpg123")).2.2.1 ⟨0, .utc⟩).2 hvalid
  have hlives : engine.Lives ⟨(engine.run day).engine, (engine.run day).actions⟩ := .run .new day
  have hvoiced := ((validated_usable (config "mpg123")).2.2.2 hvalid).2.2 _ _ hcreated _ hlives
  exact ⟨hsigned, (((validated_usable (config "")).1 hsigned).2 _).2 ⟨_, hfirst, hfault⟩, hvalid,
    engine, hcreated, hvoiced.1⟩

/-- The offset of minus 2147483648 minutes is no offset that there is, and the configuration with it
is valid and has the zone UTC. The clock is not refused either, only the shift that comes with it.
-/
theorem least_offset_validated :
    let engine : EngineConfig :=
      { utcOffsetMinutes := -2147483648, clockOffsetSecs := 9223372036854775807 }
    let config : SchedulerConfig := { engine }
    ¬ config.Sensible ∧ config.Fault .engine (.utcOffsetOutOfRange (-2147483648)) ∧
      config.validate = .ok () ∧ engine.zone = .ok .utc ∧
      HostClock.ofConfig engine = .error (.shiftTooLong 9223372036854775807) := by
  intro engine config
  have hfault : config.Fault .engine (.utcOffsetOutOfRange (-2147483648)) := .offset (by decide)
  exact ⟨fun hsensible => sensible_iff.1 hsensible _ _ hfault,
    hfault, by decide, by decide, by decide⟩

end SchedulerConfig

end Muezzin
