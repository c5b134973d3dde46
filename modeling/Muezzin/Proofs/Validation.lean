import Mathlib.Logic.Basic
import Muezzin.Config
import Muezzin.Proofs.Attempts
import Muezzin.Proofs.ScheduleKeys

/-!
# What a configuration is checked for

What can be wrong with a configuration is a property of its values, and each fault belongs to one of
its sections. The first section that has a fault decides the error, and a configuration without
faults is valid. One offset is left out: the least number of 32 bits has no absolute value, so it is
not found to be too far from UTC.

With valid files, every event that a schedule can have finds the file that it needs.
-/

namespace Muezzin

inductive IsFirst {α : Type} (P : α → Prop) : List α → α → Prop
  | here {x : α} {xs : List α} (hholds : P x) : IsFirst P (x :: xs) x
  | later {x y : α} {xs : List α} (hfails : ¬ P x) (hrest : IsFirst P xs y) : IsFirst P (x :: xs) y

namespace IsFirst

variable {α ε : Type} {P : α → Prop} {x : α} {xs : List α}

theorem holds (hfirst : IsFirst P xs x) : P x := by
  induction hfirst with
  | here hholds => exact hholds
  | later _ _ ih => exact ih

theorem mem (hfirst : IsFirst P xs x) : x ∈ xs := by
  induction hfirst with
  | here => exact List.mem_cons_self
  | later _ _ ih => exact List.mem_cons_of_mem _ ih

theorem find?_eq_some_iff {p : α → Bool} : xs.find? p = some x ↔ IsFirst (fun y => p y) xs x := by
  induction xs with
  | nil => exact ⟨nofun, nofun⟩
  | cons y xs ih =>
    by_cases hholds : p y
    · rw [List.find?_cons_of_pos hholds]
      constructor
      · rintro ⟨⟩
        exact .here hholds
      · rintro (_ | ⟨hfails, -⟩)
        · rfl
        · exact absurd hholds hfails
    · rw [List.find?_cons_of_neg hholds, ih]
      constructor
      · exact .later hholds
      · rintro (_ | ⟨-, hrest⟩)
        · contradiction
        · exact hrest

/-- Checks that are made one after another fail with the error of the first that fails. -/
theorem forM_eq_error_iff {f : α → Except ε Unit} {e : ε} :
    (xs.map f).forM id = .error e ↔ ∃ x, IsFirst (fun y => f y ≠ .ok ()) xs x ∧ f x = .error e := by
  induction xs with
  | nil => exact ⟨nofun, nofun⟩
  | cons y xs ih =>
    have hunfolded : ((y :: xs).map f).forM id = f y >>= fun _ => (xs.map f).forM id := rfl
    rw [hunfolded]
    cases hchecked : f y with
    | error d =>
      constructor
      · rintro ⟨⟩
        exact ⟨y, .here (by simp [hchecked]), hchecked⟩
      · rintro ⟨x, _ | ⟨hpassed, -⟩, hfailed⟩
        · exact hchecked.symm.trans hfailed
        · exact absurd (by simp [hchecked]) hpassed
    | ok u =>
      refine Iff.trans ih ⟨?_, ?_⟩
      · rintro ⟨x, hfirst, hfailed⟩
        exact ⟨x, .later (by simp [hchecked]) hfirst, hfailed⟩
      · rintro ⟨x, _ | ⟨-, hrest⟩, hfailed⟩
        · rw [hchecked] at hfailed
          cases hfailed
        · exact ⟨x, hrest, hfailed⟩

end IsFirst

theorem Storage.validate_eq_error_iff {storage : Storage} {complaint e : Error} :
    storage.validate complaint = .error e ↔ storage = .file "" ∧ complaint = e := by
  cases storage with
  | memory => exact ⟨nofun, nofun⟩
  | file path =>
    by_cases hunnamed : path = ""
    · simp [validate, hunnamed]
    · simp [validate, hunnamed]

theorem NotifierConfig.validate_eq_error_iff {notifier : NotifierConfig} {e : Error} :
    notifier.validate = .error e ↔
      (∃ args dir, notifier = .command "" args dir) ∧ .emptyPlayer = e := by
  cases notifier with
  | log => exact ⟨nofun, nofun⟩
  | command program args dir =>
    by_cases hunnamed : program = ""
    · simp [validate, hunnamed]
    · simp [validate, hunnamed]

namespace AudioConfig

variable {audio : AudioConfig}

def Announces (audio : AudioConfig) (p : Prayer) : Prop :=
  ∃ file, audio.announcementFiles.get? p = some file ∧ file ≠ ""

structure Named (audio : AudioConfig) : Prop where
  azan : audio.azanFile ≠ ""
  fajrAzan : audio.fajrAzanFile ≠ ""
  announcements : ∀ p ∈ Prayer.congregational, audio.Announces p

theorem hasAnnouncement_iff {p : Prayer} : audio.hasAnnouncement p ↔ audio.Announces p := by
  unfold hasAnnouncement Announces
  cases audio.announcementFiles.get? p <;> simp

theorem find?_missing_eq_some_iff {p : Prayer} :
    Prayer.congregational.find? (fun q => !audio.hasAnnouncement q) = some p ↔
      IsFirst (fun q => ¬ audio.Announces q) Prayer.congregational p := by
  rw [IsFirst.find?_eq_some_iff]
  simp only [Bool.not_eq_true', ← hasAnnouncement_iff, Bool.not_eq_true]

/-- The azan files are looked at first, and then the announcements, prayer by prayer. -/
theorem validate_eq_error_iff {e : Error} :
    audio.validate = .error e ↔
      (audio.azanFile = "" ∨ audio.fajrAzanFile = "") ∧ .emptyAzanFile = e ∨
      (audio.azanFile ≠ "" ∧ audio.fajrAzanFile ≠ "") ∧
        ∃ p, IsFirst (fun q => ¬ audio.Announces q) Prayer.congregational p ∧
          .missingAnnouncementFile p = e := by
  simp only [validate, Bool.or_eq_true, String.isEmpty_iff, ← find?_missing_eq_some_iff]
  by_cases hunnamed : audio.azanFile = "" ∨ audio.fajrAzanFile = ""
  · have hnamed : ¬ (audio.azanFile ≠ "" ∧ audio.fajrAzanFile ≠ "") := by
      rwa [← not_or, not_not]
    rw [if_pos hunnamed]
    simp only [hnamed, false_and, or_false, hunnamed, true_and, Except.error.injEq]
  · have hnamed := not_or.1 hunnamed
    rw [if_neg hunnamed]
    cases Prayer.congregational.find? fun q => !audio.hasAnnouncement q with
    | none => simp [hnamed]
    | some p => simp [hnamed]

theorem named_iff :
    audio.Named ↔ ¬ (audio.azanFile = "" ∨ audio.fajrAzanFile = "") ∧
      ∀ p, ¬ IsFirst (fun q => ¬ audio.Announces q) Prayer.congregational p := by
  constructor
  · intro hnamed
    refine ⟨fun hunnamed => hunnamed.elim hnamed.azan hnamed.fajrAzan, fun p hfirst => ?_⟩
    exact hfirst.holds (hnamed.announcements p hfirst.mem)
  · rintro ⟨hnamed, hnoFirst⟩
    refine ⟨(not_or.1 hnamed).1, (not_or.1 hnamed).2, fun p hcongregational => ?_⟩
    have hnone : Prayer.congregational.find? (fun q => !audio.hasAnnouncement q) = none :=
      Option.eq_none_iff_forall_ne_some.2 fun q hfound =>
        hnoFirst q (find?_missing_eq_some_iff.1 hfound)
    have hannounced := List.find?_eq_none.1 hnone p hcongregational
    rw [Bool.not_eq_true', Bool.not_eq_false] at hannounced
    exact hasAnnouncement_iff.1 hannounced

theorem named_of_validate (hvalid : audio.validate = .ok ()) : audio.Named := by
  have hfaultless (e : Error) : audio.validate ≠ .error e := by
    rw [hvalid]
    nofun
  have hnamed : ¬ (audio.azanFile = "" ∨ audio.fajrAzanFile = "") :=
    fun hunnamed => hfaultless _ (validate_eq_error_iff.2 (.inl ⟨hunnamed, rfl⟩))
  refine named_iff.2 ⟨hnamed, fun p hmissing => ?_⟩
  exact hfaultless _ (validate_eq_error_iff.2 (.inr ⟨not_or.1 hnamed, p, hmissing, rfl⟩))

/-- Every event of a schedule has the file that it needs: one with a name if it plays, and none if
it is the rollover. -/
theorem Named.fileFor (hnamed : audio.Named) {e : Event} (hproper : e.Proper) :
    (e.kind = .rollover → audio.fileFor e = none) ∧
      (e.kind ≠ .rollover → ∃ file, audio.fileFor e = some file ∧ file ≠ "") := by
  cases hproper with
  | @azan p hp date time =>
    refine ⟨nofun, fun _ => ?_⟩
    by_cases hdawn : p = .fajr
    · subst hdawn
      exact ⟨audio.fajrAzanFile, rfl, hnamed.fajrAzan⟩
    · refine ⟨audio.azanFile, ?_, hnamed.azan⟩
      cases p <;> first | rfl | exact absurd rfl hdawn
  | @announcement p hp date time => exact ⟨nofun, fun _ => hnamed.announcements p hp⟩
  | rollover date time => exact ⟨fun _ => rfl, fun hplays => absurd rfl hplays⟩

end AudioConfig

namespace EngineConfig

variable {config : EngineConfig}

theorem validate_eq_ok_iff :
    config.validate = .ok () ↔ (∃ zone, config.zone = .ok zone) ∧ config.eventCapacity ≠ 0 := by
  simp [validate, bind_eq_ok_iff]

/-- The zone is looked at first, and then the room for events. -/
theorem validate_eq_error_iff (hsigned : config.utcOffsetMinutes ≠ Int32.minValue) {e : Error} :
    let minutes := config.utcOffsetMinutes.toInt
    config.validate = .error e ↔
      ¬ (-840 ≤ minutes ∧ minutes ≤ 840) ∧ .utcOffsetOutOfRange minutes = e ∨
      (-840 ≤ minutes ∧ minutes ≤ 840) ∧ config.eventCapacity = 0 ∧ .noEventCapacity = e := by
  intro minutes
  have hrange : config.utcOffsetMinutes.abs.toInt ≤ Error.maxUtcOffsetMinutes ↔
      -840 ≤ minutes ∧ minutes ≤ 840 := abs_le_iff hsigned
  by_cases hnear : -840 ≤ minutes ∧ minutes ≤ 840
  · simp only [validate, zone, if_pos (hrange.2 hnear)]
    by_cases hroom : config.eventCapacity = 0
    · simp [hnear, hroom, bind, Except.bind]
    · simp [hnear, hroom, bind, Except.bind]
  · simp only [validate, zone, if_neg (mt hrange.1 hnear)]
    simp [hnear, minutes, bind, Except.bind]

end EngineConfig

namespace SchedulerConfig

variable {config : SchedulerConfig}

inductive Section where
  | source
  | store
  | notifier
  | audio
  | engine
  deriving DecidableEq, Repr

def Section.inOrder : List Section :=
  [.source, .store, .notifier, .audio, .engine]

/-- What a section can complain about. -/
inductive Fault (config : SchedulerConfig) : Section → Error → Prop
  | source (hunnamed : config.prayerSource = .file "") : Fault config .source .emptyTimetablePath
  | store (hunnamed : config.settingsStore = .file "") : Fault config .store .emptySettingsPath
  | notifier {args : List String} {dir : Option String}
      (hunnamed : config.notifier = .command "" args dir) : Fault config .notifier .emptyPlayer
  | azan (hunnamed : config.audio.azanFile = "" ∨ config.audio.fajrAzanFile = "") :
      Fault config .audio .emptyAzanFile
  | announcement {p : Prayer}
      (hnamed : config.audio.azanFile ≠ "" ∧ config.audio.fajrAzanFile ≠ "")
      (hmissing : IsFirst (fun q => ¬ config.audio.Announces q) Prayer.congregational p) :
      Fault config .audio (.missingAnnouncementFile p)
  | offset (hfar : ¬ (-840 ≤ config.engine.utcOffsetMinutes.toInt ∧
        config.engine.utcOffsetMinutes.toInt ≤ 840)) :
      Fault config .engine (.utcOffsetOutOfRange config.engine.utcOffsetMinutes.toInt)
  | capacity (hnear : -840 ≤ config.engine.utcOffsetMinutes.toInt ∧
        config.engine.utcOffsetMinutes.toInt ≤ 840) (hnone : config.engine.eventCapacity = 0) :
      Fault config .engine .noEventCapacity

/-- Nothing is wrong with any section. -/
structure Sensible (config : SchedulerConfig) : Prop where
  source : config.prayerSource ≠ .file ""
  store : config.settingsStore ≠ .file ""
  notifier : ∀ args dir, config.notifier ≠ .command "" args dir
  audio : config.audio.Named
  offset : -840 ≤ config.engine.utcOffsetMinutes.toInt ∧
    config.engine.utcOffsetMinutes.toInt ≤ 840
  capacity : 0 < config.engine.eventCapacity

def check (config : SchedulerConfig) : Section → Except Error Unit
  | .source => config.prayerSource.validate .emptyTimetablePath
  | .store => config.settingsStore.validate .emptySettingsPath
  | .notifier => config.notifier.validate
  | .audio => config.audio.validate
  | .engine => config.engine.validate

theorem sections_eq (config : SchedulerConfig) :
    config.sections = Section.inOrder.map config.check := rfl

theorem sensible_iff : config.Sensible ↔ ∀ s e, ¬ config.Fault s e := by
  constructor
  · rintro hsensible s e (hunnamed | hunnamed | hunnamed | hunnamed | ⟨-, hmissing⟩ | hfar |
      ⟨-, hnone⟩)
    · exact hsensible.source hunnamed
    · exact hsensible.store hunnamed
    · exact hsensible.notifier _ _ hunnamed
    · exact hunnamed.elim hsensible.audio.azan hsensible.audio.fajrAzan
    · exact (AudioConfig.named_iff.1 hsensible.audio).2 _ hmissing
    · exact hfar hsensible.offset
    · exact absurd hnone (UInt64.pos_iff_ne_zero.1 hsensible.capacity)
  · intro hfaultless
    have hnamed : ¬ (config.audio.azanFile = "" ∨ config.audio.fajrAzanFile = "") :=
      fun hunnamed => hfaultless _ _ (.azan hunnamed)
    have hnear := not_not.1 fun hfar => hfaultless _ _ (.offset hfar)
    exact {
      source := fun hunnamed => hfaultless _ _ (.source hunnamed)
      store := fun hunnamed => hfaultless _ _ (.store hunnamed)
      notifier := fun _ _ hunnamed => hfaultless _ _ (.notifier hunnamed)
      audio := AudioConfig.named_iff.2
        ⟨hnamed, fun _ hmissing => hfaultless _ _ (.announcement (not_or.1 hnamed) hmissing)⟩
      offset := hnear
      capacity := UInt64.pos_iff_ne_zero.2 fun hnone => hfaultless _ _ (.capacity hnear hnone) }

theorem Fault.check_eq_error (hsigned : config.engine.utcOffsetMinutes ≠ Int32.minValue)
    {s : Section} {e : Error} (hfault : config.Fault s e) : config.check s = .error e := by
  cases hfault with
  | source hunnamed => exact Storage.validate_eq_error_iff.2 ⟨hunnamed, rfl⟩
  | store hunnamed => exact Storage.validate_eq_error_iff.2 ⟨hunnamed, rfl⟩
  | notifier hunnamed => exact NotifierConfig.validate_eq_error_iff.2 ⟨⟨_, _, hunnamed⟩, rfl⟩
  | azan hunnamed => exact AudioConfig.validate_eq_error_iff.2 (.inl ⟨hunnamed, rfl⟩)
  | announcement hnamed hmissing =>
    exact AudioConfig.validate_eq_error_iff.2 (.inr ⟨hnamed, _, hmissing, rfl⟩)
  | offset hfar => exact (EngineConfig.validate_eq_error_iff hsigned).2 (.inl ⟨hfar, rfl⟩)
  | capacity hnear hnone =>
    exact (EngineConfig.validate_eq_error_iff hsigned).2 (.inr ⟨hnear, hnone, rfl⟩)

/-- A section complains about its faults and about nothing else. -/
theorem check_eq_error_iff (hsigned : config.engine.utcOffsetMinutes ≠ Int32.minValue)
    {s : Section} {e : Error} : config.check s = .error e ↔ config.Fault s e := by
  refine ⟨fun hfailed => ?_, Fault.check_eq_error hsigned⟩
  cases s with
  | source =>
    obtain ⟨hunnamed, rfl⟩ := Storage.validate_eq_error_iff.1 hfailed
    exact .source hunnamed
  | store =>
    obtain ⟨hunnamed, rfl⟩ := Storage.validate_eq_error_iff.1 hfailed
    exact .store hunnamed
  | notifier =>
    obtain ⟨⟨args, dir, hunnamed⟩, rfl⟩ := NotifierConfig.validate_eq_error_iff.1 hfailed
    exact .notifier hunnamed
  | audio =>
    rcases AudioConfig.validate_eq_error_iff.1 hfailed with
      ⟨hunnamed, rfl⟩ | ⟨hnamed, p, hmissing, rfl⟩
    · exact .azan hunnamed
    · exact .announcement hnamed hmissing
  | engine =>
    rcases (EngineConfig.validate_eq_error_iff hsigned).1 hfailed with ⟨hfar, rfl⟩ |
      ⟨hnear, hnone, rfl⟩
    · exact .offset hfar
    · exact .capacity hnear hnone

theorem check_ne_ok_iff (hsigned : config.engine.utcOffsetMinutes ≠ Int32.minValue) {s : Section} :
    config.check s ≠ .ok () ↔ ∃ e, config.Fault s e := by
  simp only [← check_eq_error_iff hsigned]
  cases config.check s <;> simp

theorem validate_eq_error_iff (hsigned : config.engine.utcOffsetMinutes ≠ Int32.minValue)
    {e : Error} :
    config.validate = .error e ↔
      ∃ s, IsFirst (fun t => ∃ f, config.Fault t f) Section.inOrder s ∧ config.Fault s e := by
  rw [validate, sections_eq, IsFirst.forM_eq_error_iff]
  simp only [check_ne_ok_iff hsigned, check_eq_error_iff hsigned]

theorem validate_iff (hsigned : config.engine.utcOffsetMinutes ≠ Int32.minValue) :
    config.validate = .ok () ↔ config.Sensible := by
  rw [validate_eq_ok_iff, sections_eq, List.forall_mem_map, sensible_iff]
  have hevery (s : Section) : s ∈ Section.inOrder := by cases s <;> decide
  simp only [hevery, forall_const, ← not_exists, ← check_ne_ok_iff hsigned, not_not]

theorem validate_audio (hvalid : config.validate = .ok ()) : config.audio.validate = .ok () :=
  validate_eq_ok_iff.1 hvalid _ (by simp [sections])

theorem exists_zone (hvalid : config.validate = .ok ()) :
    ∃ zone, config.engine.zone = .ok zone := by
  have hpassed : config.engine.validate = .ok () :=
    validate_eq_ok_iff.1 hvalid _ (by simp [sections])
  exact (EngineConfig.validate_eq_ok_iff.1 hpassed).1

end SchedulerConfig

end Muezzin
