import Muezzin.Daemon.Environment
import Muezzin.Proofs.Validation

/-!
# The environments that the daemon refuses

A reason to refuse an environment is a property of the values of its variables and of the paths that
they name. The daemon looks for the reasons one after another and stops at the first, in three
stages: values that cannot be read, paths, and values that make no sense. Each check passes exactly
if its reason is absent, so all of them pass exactly if there is no reason at all. The one offset
that has no absolute value is left out.
-/

namespace Muezzin

namespace Text

theorem readUp_bounds {high value n : Int} {cs : List Char} (h : readUp high value cs = .ok n)
    (hvalue : 0 ≤ value) (hle : value ≤ high) : 0 ≤ n ∧ n ≤ high := by
  induction cs generalizing value with
  | nil =>
    cases h
    exact ⟨hvalue, hle⟩
  | cons c cs ih =>
    rw [readUp] at h
    split at h
    · cases h
    · simp only at h
      split at h
      · cases h
      · exact ih h (by omega) (by omega)

theorem readDown_bounds {low value n : Int} {cs : List Char} (h : readDown low value cs = .ok n)
    (hvalue : value ≤ 0) (hle : low ≤ value) : low ≤ n ∧ n ≤ 0 := by
  induction cs generalizing value with
  | nil =>
    cases h
    exact ⟨hle, hvalue⟩
  | cons c cs ih =>
    rw [readDown] at h
    split at h
    · cases h
    · simp only at h
      split at h
      · cases h
      · exact ih h (by omega) (by omega)

theorem readInteger_bounds {low high n : Int} {cs : List Char} (h : readInteger low high cs = .ok n)
    (hlow : low ≤ 0) (hhigh : 0 ≤ high) : low ≤ n ∧ n ≤ high := by
  unfold readInteger at h
  split at h
  · cases h
  · cases h
  · cases h
  · have := readUp_bounds h (by omega) hhigh
    omega
  · split at h
    · have := readDown_bounds h (by omega) hlow
      omega
    · cases h
  · have := readUp_bounds h (by omega) hhigh
    omega

end Text

namespace Environment

variable {env : Environment} {host : Host} {name value : String}

/-- The variable is set, and not to blanks. -/
def Gives (env : Environment) (name value : String) : Prop :=
  env.get? name = some value ∧ Text.allBlank value.toList = false

def Lacks (env : Environment) (name : String) : Prop :=
  ∀ value, ¬env.Gives name value

/-- The variable is given, and what stands between the blanks around it cannot be read. -/
def Misreads {ε α : Type} (env : Environment) (name : String) (read : List Char → Except ε α) :
    Prop :=
  ∃ value, env.Gives name value ∧ ∀ a, read (Text.trim value.toList) ≠ .ok a

/-- The file is named, and the directory that it lies in does not exist. The working directory has
the empty name. -/
def Homeless (env : Environment) (host : Host) (name : String) : Prop :=
  ∃ path parent, env.Gives name path ∧ Path.parent? path = some parent ∧ parent ≠ "" ∧
    host.pathExists parent = false

/-- The level is none of the five names in any letter case. Nothing is trimmed, and a blank level is
not taken for an unset one. -/
def LevelUnknown (env : Environment) : Prop :=
  String.ofList (Text.lower ((env.get? "IQAMAH_LOG_LEVEL").getD "info").toList) ∉
    ["trace", "debug", "info", "warn", "error"]

def TooFar (env : Environment) : Prop :=
  ∃ value n, env.Gives "IQAMAH_UTC_OFFSET_MINUTES" value ∧
    Text.readInt32 (Text.trim value.toList) = .ok n ∧ (n < -840 ∨ 840 < n)

/-- The number is read, and it is the one whose absolute value does not fit 32 bits. -/
def Overflows (env : Environment) : Prop :=
  ∃ value, env.Gives "IQAMAH_UTC_OFFSET_MINUTES" value ∧
    Text.readInt32 (Text.trim value.toList) = .ok (-2147483648)

/-- The reasons to refuse an environment on a host. -/
inductive Refused (env : Environment) (host : Host) : Prop where
  | offset (h : env.Misreads "IQAMAH_UTC_OFFSET_MINUTES" Text.readInt32)
  | rollover (h : env.Misreads "IQAMAH_ROLLOVER_TIME" TimeOfDay.read)
  | shift (h : env.Misreads "IQAMAH_CLOCK_OFFSET_SECS" Text.readInt64)
  | timesLacking (h : env.Lacks "IQAMAH_TIMES_FILE")
  | settingsLacking (h : env.Lacks "IQAMAH_SETTINGS_FILE")
  | timesHomeless (h : env.Homeless host "IQAMAH_TIMES_FILE")
  | settingsHomeless (h : env.Homeless host "IQAMAH_SETTINGS_FILE")
  | audio (dir : String) (h : env.Gives "IQAMAH_AUDIO_DIR" dir)
      (hdir : host.isDirectory dir = false)
  | level (h : env.LevelUnknown)
  | tooFar (h : env.TooFar)

theorem present?_eq_some_iff : env.present? name = some value ↔ env.Gives name value := by
  simp [present?, Gives, Option.filter_eq_some_iff]

theorem present?_eq_none_iff : env.present? name = none ↔ env.Lacks name := by
  simp only [Option.eq_none_iff_forall_ne_some, ne_eq, present?_eq_some_iff, Lacks]

theorem Gives.isEmpty (h : env.Gives name value) : value.isEmpty = false := by
  cases hempty : value.isEmpty with
  | false => rfl
  | true =>
    obtain rfl := String.isEmpty_iff.1 hempty
    cases h.2

/-- A value is read unless it is misread. -/
theorem exists_parsed_iff {α : Type} {fallback : α} {read : List Char → Except ValueFault α} :
    (∃ a, env.parsed name fallback read = .ok a) ↔ ¬env.Misreads name read := by
  simp only [Misreads, ← present?_eq_some_iff, parsed]
  cases env.present? name with
  | none => simp
  | some value => simp [mapError_eq_ok_iff]

theorem misreads_congr {ε ε' α β : Type} {read : List Char → Except ε α}
    {read' : List Char → Except ε' β}
    (h : ∀ cs, (∃ a, read cs = .ok a) ↔ ∃ b, read' cs = .ok b) :
    env.Misreads name read ↔ env.Misreads name read' := by
  simp only [Misreads, ne_eq, ← not_exists, h]

theorem exists_file_iff :
    (∃ path, env.present? name = some path ∧ DaemonConfig.checkParent host name path = .ok ()) ↔
      ¬env.Lacks name ∧ ¬env.Homeless host name := by
  simp only [← present?_eq_none_iff, Homeless, ← present?_eq_some_iff, DaemonConfig.checkParent]
  cases env.present? name with
  | none => simp
  | some path => cases hparent : Path.parent? path <;> simp [hparent]

end Environment

namespace DaemonConfig

variable {env : Environment} {host : Host} {c : DaemonConfig}

theorem readOffset_eq_ok_iff {cs : List Char} {m : Int32} :
    readOffset cs = .ok m ↔ ∃ n, Text.readInt32 cs = .ok n ∧ Int32.ofInt n = m := by
  simp [readOffset, mapError_eq_ok_iff, map_eq_ok_iff]

theorem misreads_readOffset_iff {name : String} :
    env.Misreads name readOffset ↔ env.Misreads name Text.readInt32 :=
  Environment.misreads_congr fun cs => by
    simp [readOffset, mapError_eq_ok_iff, exists_map_eq_ok_iff]

theorem misreads_readRollover_iff {name : String} :
    env.Misreads name readRollover ↔ env.Misreads name TimeOfDay.read :=
  Environment.misreads_congr fun cs => by
    simp [readRollover, TimeOfDay.parse, mapError_eq_ok_iff]

theorem misreads_readShift_iff {name : String} :
    env.Misreads name readShift ↔ env.Misreads name Text.readInt64 :=
  Environment.misreads_congr fun cs => by
    simp [readShift, mapError_eq_ok_iff, exists_map_eq_ok_iff]

theorem ofEnvironment_eq_ok_iff :
    ofEnvironment env = .ok c ↔ ∃ offset rollover shift,
      env.parsed offsetVariable 0 readOffset = .ok offset ∧
      env.parsed rolloverVariable .midnight readRollover = .ok rollover ∧
      env.parsed shiftVariable 0 readShift = .ok shift ∧
      ofValues env offset rollover shift = c := by
  simp [ofEnvironment, bind_eq_ok_iff]

theorem validate_eq_ok_iff :
    c.validate host = .ok () ↔ c.checkPaths host = .ok () ∧ c.checkValues = .ok () :=
  then_eq_ok_iff

theorem requireFile_eq_ok_iff {name sample path : String} {given : Option String} :
    requireFile name sample given = .ok path ↔ given = some path := by
  cases given <;> simp [requireFile]

theorem checkPaths_eq_ok_iff :
    c.checkPaths host = .ok () ↔
      (∃ times, c.timesFile = some times ∧ checkParent host timesVariable times = .ok ()) ∧
      (∃ settings, c.settingsFile = some settings ∧
        checkParent host settingsVariable settings = .ok ()) ∧
      ∀ dir, c.audioDir = some dir → host.isDirectory dir := by
  simp only [checkPaths, bind_eq_ok_iff, requireFile_eq_ok_iff]
  cases c.audioDir <;> grind

theorem checkValues_eq_ok_iff :
    c.checkValues = .ok () ↔
      (LogLevel.ofName? c.logLevel).isSome ∧ c.scheduler.validate = .ok () := by
  simp only [checkValues]
  cases LogLevel.ofName? c.logLevel <;> simp [mapError_eq_ok_iff, bind, Except.bind]

theorem validate_scheduler (h : c.validate host = .ok ()) : c.scheduler.validate = .ok () :=
  (checkValues_eq_ok_iff.1 (validate_eq_ok_iff.1 h).2).2

theorem isSome_ofName?_iff {name : String} :
    (LogLevel.ofName? name).isSome ↔
      String.ofList (Text.lower name.toList) ∈ ["trace", "debug", "info", "warn", "error"] := by
  simp only [LogLevel.ofName?]
  split <;> simp_all

structure Filled (c : DaemonConfig) : Prop where
  times : ∀ path ∈ c.timesFile, path.isEmpty = false
  settings : ∀ path ∈ c.settingsFile, path.isEmpty = false
  player : ∀ program ∈ c.player, program.isEmpty = false
  azan : ∀ file ∈ c.azanFile, file.isEmpty = false
  fajrAzan : ∀ file ∈ c.fajrAzanFile, file.isEmpty = false

theorem filled_ofValues (env : Environment) (offset : Int32) (rollover : TimeOfDay)
    (shift : Int64) : (ofValues env offset rollover shift).Filled := by
  have hfilled (name : String) : ∀ value ∈ env.present? name, value.isEmpty = false :=
    fun value hvalue => (Environment.present?_eq_some_iff.1 hvalue).isEmpty
  exact ⟨hfilled _, hfilled _, hfilled _, hfilled _, hfilled _⟩

theorem validate_storage {given : Option String} {complaint : Error}
    (h : ∀ path ∈ given, path.isEmpty = false) :
    (given.elim Storage.memory Storage.file).validate complaint = .ok () := by
  cases given with
  | none => rfl
  | some path => simp [Storage.validate, h path rfl]

theorem Filled.validate_notifier (h : c.Filled) : c.scheduler.notifier.validate = .ok () := by
  simp only [scheduler]
  cases hplayer : c.player with
  | none => rfl
  | some program => simp [NotifierConfig.validate, h.player program hplayer]

/-- The announcements of the defaults are there, and no file can be taken away by a variable. -/
theorem Filled.validate_audio (h : c.Filled) : c.scheduler.audio.validate = .ok () := by
  have hgiven {given : Option String} {fallback : String} (hfallback : fallback.isEmpty = false)
      (hfilled : ∀ file ∈ given, file.isEmpty = false) : (given.getD fallback).isEmpty = false := by
    cases given with
    | none => exact hfallback
    | some file => exact hfilled file rfl
  have hazan : c.scheduler.audio.azanFile.isEmpty = false := hgiven rfl h.azan
  have hfajr : c.scheduler.audio.fajrAzanFile.isEmpty = false := hgiven rfl h.fajrAzan
  have hannounced : Prayer.congregational.find?
      (fun p => !c.scheduler.audio.hasAnnouncement p) = none := by
    have hdefault : c.scheduler.audio.hasAnnouncement = AudioConfig.hasAnnouncement {} := rfl
    rw [hdefault]
    decide
  simp [AudioConfig.validate, hazan, hfajr, hannounced]

/-- With no text empty, the library can only complain about the zone. -/
theorem Filled.validate_scheduler_iff (h : c.Filled) :
    c.scheduler.validate = .ok () ↔
      -Error.maxUtcOffsetMinutes ≤ c.utcOffsetMinutes.toInt ∧
        c.utcOffsetMinutes.toInt ≤ Error.maxUtcOffsetMinutes ∨
      c.utcOffsetMinutes = Int32.minValue := by
  have hcapacity : c.scheduler.engine.eventCapacity ≠ 0 := (by decide : (1000 : UInt64) ≠ 0)
  have hzone : (∃ zone, c.scheduler.engine.zone = .ok zone) ↔
      -Error.maxUtcOffsetMinutes ≤ c.utcOffsetMinutes.toInt ∧
        c.utcOffsetMinutes.toInt ≤ Error.maxUtcOffsetMinutes ∨
      c.utcOffsetMinutes = Int32.minValue := EngineConfig.exists_zone_iff
  have htimes : c.scheduler.prayerSource.validate .emptyTimetablePath = .ok () :=
    validate_storage h.times
  have hsettings : c.scheduler.settingsStore.validate .emptySettingsPath = .ok () :=
    validate_storage h.settings
  simp [SchedulerConfig.validate_eq_ok_iff, SchedulerConfig.sections, htimes, hsettings,
    h.validate_notifier, h.validate_audio, EngineConfig.validate_eq_ok_iff, hcapacity, hzone]

theorem toInt_of_readInt32 {cs : List Char} {n : Int} (h : Text.readInt32 cs = .ok n) :
    (Int32.ofInt n).toInt = n := by
  have := Text.readInteger_bounds h (by decide) (by decide)
  exact Int32.toInt_ofInt_of_le (by omega) (by omega)

theorem offset_in_range_iff {offset : Int32}
    (h : env.parsed offsetVariable 0 readOffset = .ok offset) :
    (-Error.maxUtcOffsetMinutes ≤ offset.toInt ∧ offset.toInt ≤ Error.maxUtcOffsetMinutes) ↔
      ¬env.TooFar := by
  simp only [Environment.TooFar, ← Environment.present?_eq_some_iff]
  unfold Environment.parsed at h
  split at h
  · next habsent =>
    cases h
    have habsent : env.present? "IQAMAH_UTC_OFFSET_MINUTES" = none := habsent
    simp [habsent, Error.maxUtcOffsetMinutes]
  · next value hpresent =>
    have hpresent : env.present? "IQAMAH_UTC_OFFSET_MINUTES" = some value := hpresent
    obtain ⟨n, hread, rfl⟩ := readOffset_eq_ok_iff.1 (mapError_eq_ok_iff.1 h)
    simp [hpresent, hread, toInt_of_readInt32 hread, Error.maxUtcOffsetMinutes]

/-- The least number of 32 bits is no default, so it has been read. -/
theorem ne_minValue {offset : Int32} (hplain : ¬env.Overflows)
    (h : env.parsed offsetVariable 0 readOffset = .ok offset) : offset ≠ Int32.minValue := by
  rintro rfl
  unfold Environment.parsed at h
  split at h
  · cases h
  · next value hpresent =>
    obtain ⟨n, hread, hn⟩ := readOffset_eq_ok_iff.1 (mapError_eq_ok_iff.1 h)
    have hleast : n = -2147483648 := by rw [← toInt_of_readInt32 hread, hn]; rfl
    exact hplain ⟨value, Environment.present?_eq_some_iff.1 hpresent, hleast ▸ hread⟩

theorem validate_ofValues_iff {offset : Int32} {rollover : TimeOfDay} {shift : Int64}
    (hplain : ¬env.Overflows) (h : env.parsed offsetVariable 0 readOffset = .ok offset) :
    (ofValues env offset rollover shift).validate host = .ok () ↔
      ((¬env.Lacks timesVariable ∧ ¬env.Homeless host timesVariable) ∧
        (¬env.Lacks settingsVariable ∧ ¬env.Homeless host settingsVariable) ∧
        ∀ dir, env.Gives audioVariable dir → host.isDirectory dir) ∧
      ¬env.LevelUnknown ∧ ¬env.TooFar := by
  have hsigned : ¬(ofValues env offset rollover shift).utcOffsetMinutes = Int32.minValue :=
    ne_minValue hplain h
  rw [validate_eq_ok_iff, checkPaths_eq_ok_iff, checkValues_eq_ok_iff,
    (filled_ofValues env offset rollover shift).validate_scheduler_iff, or_iff_left hsigned,
    isSome_ofName?_iff,
    ← Environment.exists_file_iff, ← Environment.exists_file_iff, ← offset_in_range_iff h,
    Environment.LevelUnknown, Decidable.not_not]
  simp only [← Environment.present?_eq_some_iff]
  rfl

theorem not_refused_of_valid (hplain : ¬env.Overflows) (hread : ofEnvironment env = .ok c)
    (hvalid : c.validate host = .ok ()) : ¬env.Refused host := by
  obtain ⟨offset, rollover, shift, hoffset, hrollover, hshift, rfl⟩ :=
    ofEnvironment_eq_ok_iff.1 hread
  obtain ⟨⟨htimes, hsettings, haudio⟩, hlevel, hnear⟩ :=
    (validate_ofValues_iff hplain hoffset).1 hvalid
  rintro (h | h | h | h | h | h | h | ⟨dir, h, hdir⟩ | h | h)
  · exact Environment.exists_parsed_iff.1 ⟨_, hoffset⟩ (misreads_readOffset_iff.2 h)
  · exact Environment.exists_parsed_iff.1 ⟨_, hrollover⟩ (misreads_readRollover_iff.2 h)
  · exact Environment.exists_parsed_iff.1 ⟨_, hshift⟩ (misreads_readShift_iff.2 h)
  · exact htimes.1 h
  · exact hsettings.1 h
  · exact htimes.2 h
  · exact hsettings.2 h
  · simp [haudio dir h] at hdir
  · exact hlevel h
  · exact hnear h

theorem exists_valid (h : ¬env.Refused host) :
    ∃ c, ofEnvironment env = .ok c ∧ c.validate host = .ok () := by
  have hplain : ¬env.Overflows := fun ⟨value, hgives, hread⟩ =>
    h (.tooFar ⟨value, _, hgives, hread, by decide⟩)
  -- The first stage reads three values, and each is read unless it is a reason.
  obtain ⟨offset, hoffset⟩ := Environment.exists_parsed_iff.2 fun hmisread =>
    h (.offset (misreads_readOffset_iff.1 hmisread))
  obtain ⟨rollover, hrollover⟩ := Environment.exists_parsed_iff.2 fun hmisread =>
    h (.rollover (misreads_readRollover_iff.1 hmisread))
  obtain ⟨shift, hshift⟩ := Environment.exists_parsed_iff.2 fun hmisread =>
    h (.shift (misreads_readShift_iff.1 hmisread))
  refine ⟨_, ofEnvironment_eq_ok_iff.2 ⟨_, _, _, hoffset, hrollover, hshift, rfl⟩, ?_⟩
  -- The other two stages look at what was read and at the host.
  have haudio (dir : String) (hgives : env.Gives audioVariable dir) : host.isDirectory dir := by
    cases hdir : host.isDirectory dir with
    | true => rfl
    | false => exact absurd (.audio dir hgives hdir) h
  exact (validate_ofValues_iff hplain hoffset).2
    ⟨⟨⟨fun hlacks => h (.timesLacking hlacks), fun hhomeless => h (.timesHomeless hhomeless)⟩,
      ⟨fun hlacks => h (.settingsLacking hlacks),
        fun hhomeless => h (.settingsHomeless hhomeless)⟩, haudio⟩,
      fun hunknown => h (.level hunknown), fun hfar => h (.tooFar hfar)⟩

/-- Every check passes exactly if there is no reason to refuse the environment. -/
theorem accepted_iff (hplain : ¬env.Overflows) :
    (∃ c, ofEnvironment env = .ok c ∧ c.validate host = .ok ()) ↔ ¬env.Refused host :=
  ⟨fun ⟨_, hread, hvalid⟩ => not_refused_of_valid hplain hread hvalid, exists_valid⟩

end DaemonConfig

end Muezzin
