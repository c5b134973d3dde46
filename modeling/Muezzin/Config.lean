import Muezzin.Schedule

/-!
# Configuration

A configuration says where prayer times and settings come from, how audio is delivered, which files
are played and how the engine keeps time. Each section checks itself; the first complaint in the
order of the sections is the complaint of the whole.
-/

namespace Muezzin

inductive Storage where
  | file (path : String)
  | memory
  deriving DecidableEq, Repr, Inhabited

inductive NotifierConfig where
  /-- Record the request and play nothing. -/
  | log
  /-- Start a player with the arguments and the path of the audio file. -/
  | command (program : String) (args : List String) (audioDir : Option String)
  deriving DecidableEq, Repr, Inhabited

structure AudioConfig where
  azanFile : String := "azan.mp3"
  fajrAzanFile : String := "fajr-azan.mp3"
  announcementFiles : PrayerTable String :=
    PrayerTable.ofFn fun p =>
      if p.hasIqamah then some ("announcement-" ++ p.name ++ ".mp3") else none
  deriving DecidableEq, Repr, Inhabited

structure EngineConfig where
  /-- The zone of all local times, in minutes east of UTC. -/
  utcOffsetMinutes : Int32 := 0
  /-- How far the clock is shifted, for rehearsals. -/
  clockOffsetSecs : Int64 := 0
  rolloverTime : TimeOfDay := .midnight
  /-- How many engine events wait for a listener before new ones are dropped. -/
  eventCapacity : UInt64 := 1000
  deriving DecidableEq, Repr, Inhabited

structure SchedulerConfig where
  prayerSource : Storage := .memory
  settingsStore : Storage := .memory
  notifier : NotifierConfig := .log
  audio : AudioConfig := {}
  engine : EngineConfig := {}
  deriving DecidableEq, Repr, Inhabited

def Storage.name : Storage → String
  | .file _ => "file"
  | .memory => "memory"

def NotifierConfig.name : NotifierConfig → String
  | .log => "log"
  | .command _ _ _ => "command"

def Storage.validate (complaint : Error) : Storage → Except Error Unit
  | .file path => if path.isEmpty then .error complaint else .ok ()
  | .memory => .ok ()

def NotifierConfig.validate : NotifierConfig → Except Error Unit
  | .log => .ok ()
  | .command program _ _ => if program.isEmpty then .error .emptyPlayer else .ok ()

namespace AudioConfig

/-- The file of an azan or an announcement; nothing is played for anything else. -/
def fileFor (audio : AudioConfig) (e : Event) : Option String :=
  match e.kind, e.prayer with
  | .azan, some .fajr => some audio.fajrAzanFile
  | .azan, some _ => some audio.azanFile
  | .announcement, some p => audio.announcementFiles.get? p
  | _, _ => none

def hasAnnouncement (audio : AudioConfig) (p : Prayer) : Bool :=
  match audio.announcementFiles.get? p with
  | some file => !file.isEmpty
  | none => false

def validate (audio : AudioConfig) : Except Error Unit :=
  if audio.azanFile.isEmpty || audio.fajrAzanFile.isEmpty then .error .emptyAzanFile
  else
    match Prayer.congregational.find? fun p => !audio.hasAnnouncement p with
    | some p => .error (.missingAnnouncementFile p)
    | none => .ok ()

end AudioConfig

namespace EngineConfig

/-- The absolute value and the seconds are numbers of 32 bits. The least of these has no absolute
value: it stays what it is and passes, and so many minutes are no seconds. -/
def zone (config : EngineConfig) : Except Error Zone :=
  let minutes := config.utcOffsetMinutes
  if minutes.abs.toInt ≤ Error.maxUtcOffsetMinutes then .ok ⟨(60 * minutes).toInt⟩
  else .error (.utcOffsetOutOfRange minutes.toInt)

theorem abs_le_iff {minutes : Int32} (hsigned : minutes ≠ Int32.minValue) :
    minutes.abs.toInt ≤ Error.maxUtcOffsetMinutes ↔
      -Error.maxUtcOffsetMinutes ≤ minutes.toInt ∧ minutes.toInt ≤ Error.maxUtcOffsetMinutes := by
  have hsigned : minutes.toBitVec ≠ BitVec.intMin 32 := fun hleast =>
    hsigned (Int32.toBitVec_inj.1 hleast)
  have hsize : minutes.abs.toInt = minutes.toInt.natAbs := by
    rw [← Int32.toInt_toBitVec, Int32.toBitVec_abs, BitVec.toInt_abs_eq_natAbs, if_neg hsigned,
      Int32.toInt_toBitVec]
  rw [hsize]
  omega

theorem toInt_mul_sixty {minutes : Int32}
    (hnear : -Error.maxUtcOffsetMinutes ≤ minutes.toInt ∧
      minutes.toInt ≤ Error.maxUtcOffsetMinutes) : (60 * minutes).toInt = 60 * minutes.toInt := by
  simp only [Error.maxUtcOffsetMinutes] at hnear
  have hsixty : (60 : Int32).toInt = 60 := rfl
  rw [Int32.toInt_mul, hsixty]
  exact Int.bmod_eq_of_le (by omega) (by omega)

/-- There is a zone if the offset is in the range, and it is that of the offset. For the least
number of 32 bits it is UTC. -/
theorem zone_eq_ok_iff {config : EngineConfig} {zone : Zone} :
    config.zone = .ok zone ↔
      (-Error.maxUtcOffsetMinutes ≤ config.utcOffsetMinutes.toInt ∧
        config.utcOffsetMinutes.toInt ≤ Error.maxUtcOffsetMinutes) ∧
      Zone.ofMinutes config.utcOffsetMinutes.toInt = zone ∨
      config.utcOffsetMinutes = Int32.minValue ∧ Zone.utc = zone := by
  simp only [EngineConfig.zone]
  by_cases hleast : config.utcOffsetMinutes = Int32.minValue
  · rw [hleast]
    have hfar : ¬ -Error.maxUtcOffsetMinutes ≤ Int32.minValue.toInt := by decide
    have hpasses : Int32.minValue.abs.toInt ≤ Error.maxUtcOffsetMinutes := by decide
    have hseconds : (⟨(60 * Int32.minValue).toInt⟩ : Zone) = .utc := by decide
    simp only [if_pos hpasses, hseconds, hfar, false_and, false_or, true_and, Except.ok.injEq]
  · simp only [abs_le_iff hleast, hleast, false_and, or_false]
    split
    · next hnear => simp [hnear, toInt_mul_sixty hnear, Zone.ofMinutes]
    · next hfar => simp [hfar]

theorem exists_zone_iff {config : EngineConfig} :
    (∃ zone, config.zone = .ok zone) ↔
      -Error.maxUtcOffsetMinutes ≤ config.utcOffsetMinutes.toInt ∧
        config.utcOffsetMinutes.toInt ≤ Error.maxUtcOffsetMinutes ∨
      config.utcOffsetMinutes = Int32.minValue := by
  simp [zone_eq_ok_iff, exists_or]

def validate (config : EngineConfig) : Except Error Unit := do
  let _ ← config.zone
  if config.eventCapacity = 0 then .error .noEventCapacity else .ok ()

end EngineConfig

namespace SchedulerConfig

def sections (config : SchedulerConfig) : List (Except Error Unit) :=
  [config.prayerSource.validate .emptyTimetablePath,
   config.settingsStore.validate .emptySettingsPath,
   config.notifier.validate, config.audio.validate, config.engine.validate]

def validate (config : SchedulerConfig) : Except Error Unit :=
  config.sections.forM id

theorem validate_eq_ok_iff {config : SchedulerConfig} :
    config.validate = .ok () ↔ ∀ check ∈ config.sections, check = .ok () := by
  have hgeneral (checks : List (Except Error Unit)) :
      forM checks id = Except.ok () ↔ ∀ check ∈ checks, check = .ok () := by
    induction checks with
    | nil => simp [pure, Except.pure]
    | cons check checks ih => cases check <;> simp [bind, Except.bind, ih]
  exact hgeneral config.sections

end SchedulerConfig

end Muezzin
