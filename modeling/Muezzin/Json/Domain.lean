import Muezzin.Json.Decoder
import Muezzin.Config
import Muezzin.Timetable

/-!
# The documents of the library

For every persisted type the document that is written for it and the decoder that reads it. Written
documents have all their fields, missing values as `null`, and slots under their own names; what is
read may leave out fields that have a default and may use any spelling of a name or a time.
-/

namespace Muezzin

open Json (Decoder Refusal)
open Json.Decoder (Field field record completeRecord)

def PrayerTable.toJson {α : Type} (value : α → Json) (t : PrayerTable α) : Json :=
  .record (t.toList.map fun e => (e.1.name, value e.2))

namespace Prayer

def toJson (p : Prayer) : Json := .string p.name

def decoder : Decoder Prayer := Decoder.meaning parse

end Prayer

namespace TimeOfDay

def toJson (t : TimeOfDay) : Json := .string t.render

def decoder : Decoder TimeOfDay := Decoder.meaning parse

end TimeOfDay

namespace IqamahOffsets

def toJson (offsets : IqamahOffsets) : Json :=
  PrayerTable.toJson (fun n => .integer n.toInt) offsets

def decoder : Decoder IqamahOffsets := Decoder.prayerTable Decoder.int32

end IqamahOffsets

namespace PrayerTimes

def toJson (times : PrayerTimes) : Json :=
  .record
    [("start_times", times.starts.toJson TimeOfDay.toJson),
     ("iqamah_times", times.iqamahs.toJson TimeOfDay.toJson)]

def decoder : Decoder PrayerTimes :=
  let table := Decoder.prayerTable TimeOfDay.decoder
  completeRecord
    [field "start_times" table fun t s => (some t, s.2),
     field "iqamah_times" table fun t s => (s.1, some t)]
    (none, none)
    fun s => do
      let starts ← s.1
      let iqamahs ← s.2
      some (new starts iqamahs)

end PrayerTimes

namespace Toggles

def toJson (t : Toggles) : Json :=
  .record
    [("azan_enabled", .bool t.azan), ("announcement_enabled", .bool t.announcement),
     ("azan_at_iqamah", .bool t.azanAtIqamah)]

def decoder : Decoder Toggles :=
  record
    [field "azan_enabled" Decoder.bool fun b s => { s with azan := b },
     field "announcement_enabled" Decoder.bool fun b s => { s with announcement := b },
     field "azan_at_iqamah" Decoder.bool fun b s => { s with azanAtIqamah := b }]
    {}

end Toggles

namespace PrayerSettings

def toJson (settings : PrayerSettings) : Json := PrayerTable.toJson Toggles.toJson settings

def decoder : Decoder PrayerSettings := Decoder.prayerTable Toggles.decoder

end PrayerSettings

namespace FeatureFlags

def toJson (flags : FeatureFlags) : Json :=
  .record [("azan_enabled", .bool flags.azan), ("announcement_enabled", .bool flags.announcement)]

def decoder : Decoder FeatureFlags :=
  record
    [field "azan_enabled" Decoder.bool fun b s => { s with azan := b },
     field "announcement_enabled" Decoder.bool fun b s => { s with announcement := b }]
    {}

end FeatureFlags

def Json.ofOption {α : Type} (value : α → Json) : Option α → Json
  | some a => value a
  | none => .null

namespace RawTimes

def toJson (raw : RawTimes) : Json :=
  .record (raw.toList.map fun e => (e.1, .string e.2))

def decoder : Decoder RawTimes := fun j =>
  (Decoder.entries .ok Decoder.string j).map SortedMap.ofList

end RawTimes

namespace Timetable

def toJson (table : Timetable) : Json :=
  .record
    [("iqamah_offsets", IqamahOffsets.toJson table.offsets),
     ("days", .record (table.days.toList.map fun e => (e.1.render, RawTimes.toJson e.2))),
     ("default", .ofOption RawTimes.toJson table.fallback)]

def dateName (text : String) : Except Refusal Date :=
  match Date.parse? text with
  | some d => .ok d
  | none => .error .malformed

def decoder : Decoder Timetable :=
  let days : Decoder (SortedMap Date RawTimes) := fun j =>
    (Decoder.entries dateName RawTimes.decoder j).map SortedMap.ofList
  record
    [field "iqamah_offsets" IqamahOffsets.decoder fun t s => { s with offsets := t },
     field "days" days fun d s => { s with days := d },
     field "default" (Decoder.nullable RawTimes.decoder) fun d s => { s with fallback := d }]
    {}

end Timetable

namespace SavedSettings

def toJson (saved : SavedSettings) : Json :=
  .record
    [("feature_flags", saved.flags.toJson),
     ("prayers", .ofOption PrayerSettings.toJson saved.prayers)]

def decoder : Decoder SavedSettings :=
  record
    [field "feature_flags" FeatureFlags.decoder fun f s => { s with flags := f },
     field "prayers" (Decoder.nullable PrayerSettings.decoder) fun p s => { s with prayers := p }]
    {}

end SavedSettings

namespace Storage

def toJson : Storage → Json
  | .file path => .record [("type", .string "file"), ("path", .string path)]
  | .memory => .record [("type", .string "memory")]

def decoder : Decoder Storage :=
  Decoder.tagged fun tag =>
    match tag with
    | "file" =>
      some (completeRecord [field "path" Decoder.string fun p _ => some p] none
        fun s => s.map .file)
    | "memory" => some (Decoder.unit .memory)
    | _ => none

end Storage

namespace NotifierConfig

def toJson : NotifierConfig → Json
  | .log => .record [("type", .string "log")]
  | .command program args audioDir =>
    .record
      [("type", .string "command"), ("program", .string program),
       ("args", .array (args.map .string)), ("audio_dir", .ofOption .string audioDir)]

def commandDecoder : Decoder NotifierConfig :=
  completeRecord
    [field "program" Decoder.string fun p (s : Option String × List String × Option String) =>
       (some p, s.2),
     field "args" (Decoder.list Decoder.string) fun a s => (s.1, a, s.2.2),
     field "audio_dir" (Decoder.nullable Decoder.string) fun d s => (s.1, s.2.1, d)]
    (none, [], none)
    fun s => s.1.map fun program => .command program s.2.1 s.2.2

def decoder : Decoder NotifierConfig :=
  Decoder.tagged fun tag =>
    match tag with
    | "log" => some (Decoder.unit .log)
    | "command" => some commandDecoder
    | _ => none

end NotifierConfig

namespace AudioConfig

def toJson (audio : AudioConfig) : Json :=
  .record
    [("azan_file", .string audio.azanFile), ("fajr_azan_file", .string audio.fajrAzanFile),
     ("announcement_files", audio.announcementFiles.toJson .string)]

def decoder : Decoder AudioConfig :=
  record
    [field "azan_file" Decoder.string fun f s => { s with azanFile := f },
     field "fajr_azan_file" Decoder.string fun f s => { s with fajrAzanFile := f },
     field "announcement_files" (Decoder.prayerTable Decoder.string)
       fun t s => { s with announcementFiles := t }]
    {}

end AudioConfig

namespace EngineConfig

def toJson (config : EngineConfig) : Json :=
  .record
    [("utc_offset_minutes", .integer config.utcOffsetMinutes.toInt),
     ("clock_offset_secs", .integer config.clockOffsetSecs.toInt),
     ("rollover_time", config.rolloverTime.toJson),
     ("event_channel_capacity", .integer config.eventCapacity.toNat)]

def decoder : Decoder EngineConfig :=
  record
    [field "utc_offset_minutes" Decoder.int32 fun n s => { s with utcOffsetMinutes := n },
     field "clock_offset_secs" Decoder.int64 fun n s => { s with clockOffsetSecs := n },
     field "rollover_time" TimeOfDay.decoder fun t s => { s with rolloverTime := t },
     field "event_channel_capacity" Decoder.uint64 fun n s => { s with eventCapacity := n }]
    {}

end EngineConfig

namespace SchedulerConfig

def toJson (config : SchedulerConfig) : Json :=
  .record
    [("prayer_source", config.prayerSource.toJson),
     ("settings_store", config.settingsStore.toJson), ("notifier", config.notifier.toJson),
     ("audio", config.audio.toJson), ("engine", config.engine.toJson)]

def decoder : Decoder SchedulerConfig :=
  record
    [field "prayer_source" Storage.decoder fun c s => { s with prayerSource := c },
     field "settings_store" Storage.decoder fun c s => { s with settingsStore := c },
     field "notifier" NotifierConfig.decoder fun c s => { s with notifier := c },
     field "audio" AudioConfig.decoder fun c s => { s with audio := c },
     field "engine" EngineConfig.decoder fun c s => { s with engine := c }]
    {}

end SchedulerConfig

end Muezzin
