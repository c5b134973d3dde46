import Mathlib
import Muezzin.Proofs.Decoding
import Muezzin.Proofs.Renderings

/-!
# Decoding undoes encoding

Writing and reading are no mirror images: slots are written under one name and read under nine,
times go through their texts, times of a day through a constructor that drops an iqamah at sunrise,
variants are told apart by a tag, and fields may be missing. Still every value is read back from
what is written for it, and so every document that was accepted once is settled: its value is
written and read from then on without change.
-/

namespace Muezzin

namespace Json

/-- Every value that is admissible is read back from the document that is written for it, and from
every text that reads as this document; and so is every value that was read from any document. -/
structure RoundTrips {α : Type} (toJson : α → Json) (decoder : Decoder α) (admissible : α → Prop) :
    Prop where
  reread : ∀ a, admissible a → decoder (toJson a) = .ok a
  document : ∀ a text, admissible a → Document.read text = ⟨toJson a, false⟩ →
    Decoder.document decoder text = .ok a
  settled : ∀ j a, decoder j = .ok a → decoder (toJson a) = .ok a

namespace RoundTrips

variable {α : Type} {toJson : α → Json} {decoder : Decoder α} {admissible : α → Prop}

/-- It is enough that admissible values are read back and that no other value is ever read. -/
theorem of_admissible (hreread : ∀ a, admissible a → decoder (toJson a) = .ok a)
    (haccepted : ∀ j a, decoder j = .ok a → admissible a) :
    RoundTrips toJson decoder admissible where
  reread := hreread
  document a _ hproper hread := Decoder.document_of_read hread (hreread a hproper)
  settled j a hdecoded := hreread a (haccepted j a hdecoded)

theorem of_reread (hreread : ∀ a, decoder (toJson a) = .ok a) :
    RoundTrips toJson decoder fun _ => True :=
  of_admissible (fun a _ => hreread a) fun _ _ _ => trivial

end RoundTrips

end Json

open Json Json.Decoder

namespace Prayer

theorem parse_name (p : Prayer) : parse p.name = .ok p := by
  have hspelled : ofSpelling? (foldName p.name) = some p := by
    cases p <;> decide +kernel
  rw [parse, hspelled]

end Prayer

namespace PrayerTable

variable {α : Type}

theorem foldl_insert_toList (t : PrayerTable α) :
    t.toList.foldl (fun t e => t.insert e.1 e.2) .empty = t := by
  rcases t with ⟨_ | _, _ | _, _ | _, _ | _, _ | _, _ | _⟩ <;> rfl

/-- A table is read back if its values are. -/
theorem reread {value : Decoder α} {toJson : α → Json} (hvalues : ∀ a, value (toJson a) = .ok a)
    (t : PrayerTable α) : Decoder.prayerTable value (t.toJson toJson) = .ok t := by
  have hnames (e : Prayer × α) : (Prayer.parse e.1.name).mapError Refusal.faulty = .ok e.1 := by
    rw [Prayer.parse_name]
    rfl
  rw [prayerTable, PrayerTable.toJson,
    entries_record Prayer.name toJson (fun e _ => hnames e) fun e _ => hvalues e.2]
  exact congrArg Except.ok (foldl_insert_toList t)

end PrayerTable

theorem TimeOfDay.reread (t : TimeOfDay) : decoder (toJson t) = .ok t := by
  rw [decoder, toJson, meaning, parse_render]
  rfl

namespace Json.Decoder

theorem string_reread (text : String) : string (.string text) = .ok text :=
  rfl

theorem int32_reread (n : Int32) : int32 (.integer n.toInt) = .ok n := by
  have hrange := And.intro n.le_toInt n.toInt_lt
  rw [int32, integer, if_pos (by omega)]
  exact congrArg Except.ok (Int32.ofInt_toInt n)

theorem int64_reread (n : Int64) : int64 (.integer n.toInt) = .ok n := by
  have hrange := And.intro n.le_toInt n.toInt_lt
  rw [int64, integer, if_pos (by omega)]
  exact congrArg Except.ok (Int64.ofInt_toInt n)

theorem uint64_reread (n : UInt64) : uint64 (.integer n.toNat) = .ok n := by
  have hrange := n.toNat_lt
  rw [uint64, integer, if_pos (by omega)]
  exact congrArg Except.ok UInt64.ofNat_toNat

end Json.Decoder

theorem IqamahOffsets.reread (offsets : IqamahOffsets) : decoder (toJson offsets) = .ok offsets :=
  PrayerTable.reread int32_reread offsets

theorem PrayerTimes.new_self (times : PrayerTimes) : new times.starts times.iqamahs = times := by
  obtain ⟨starts, ⟨_, _, _, _, _, _⟩, hnoSunrise⟩ := times
  cases hnoSunrise
  rfl

theorem PrayerTimes.reread (times : PrayerTimes) : decoder (toJson times) = .ok times := by
  have htable := PrayerTable.reread TimeOfDay.reread
  rw [decoder, toJson]
  exact completeRecord_of_record
    (record_reread rfl (by decide)
      (.cons (htable times.starts) (.cons (htable times.iqamahs) .nil)))
    (congrArg some (new_self times))

theorem Toggles.reread (t : Toggles) : decoder (toJson t) = .ok t := by
  rw [decoder, toJson]
  exact record_reread rfl (by decide) (.cons rfl (.cons rfl (.cons rfl .nil)))

theorem PrayerSettings.reread (settings : PrayerSettings) :
    decoder (toJson settings) = .ok settings :=
  PrayerTable.reread Toggles.reread settings

theorem FeatureFlags.reread (flags : FeatureFlags) : decoder (toJson flags) = .ok flags := by
  rw [decoder, toJson]
  exact record_reread rfl (by decide) (.cons rfl (.cons rfl .nil))

theorem RawTimes.reread (raw : RawTimes) : decoder (toJson raw) = .ok raw := by
  have hmembers : entries .ok string (.record (raw.toList.map fun e => (e.1, .string e.2))) =
      .ok raw.toList :=
    entries_record id Json.string (fun _ _ => rfl) fun e _ => string_reread e.2
  rw [decoder, toJson, hmembers]
  exact congrArg Except.ok (SortedMap.ofList_toList raw)

theorem SavedSettings.reread (saved : SavedSettings) : decoder (toJson saved) = .ok saved := by
  have hprayers := nullable_ofOption PrayerSettings.reread (fun _ => nofun) saved.prayers
  rw [decoder, toJson]
  exact record_reread rfl (by decide)
    (.cons (FeatureFlags.reread saved.flags) (.cons hprayers .nil))

namespace Storage

theorem fileDecoder_reread (path : String) :
    completeRecord [field "path" string fun p _ => some p] none (fun s => s.map Storage.file)
      (.record [("path", .string path)]) = .ok (.file path) :=
  completeRecord_of_record (record_reread rfl (by decide) (.cons (string_reread path) .nil)) rfl

theorem reread (storage : Storage) : decoder (toJson storage) = .ok storage := by
  cases storage with
  | file path =>
    rw [decoder, toJson]
    exact (tagged_record [("path", .string path)] (by simp [isPlain, Json.all, isPlainOutside])
      (by simp [depth]) (by simp [tagName]) rfl).trans (fileDecoder_reread path)
  | memory =>
    rw [decoder, toJson]
    exact tagged_record (d := unit Storage.memory) [] (by simp) (by simp) (by simp) rfl

end Storage

namespace NotifierConfig

theorem commandDecoder_reread (program : String) (args : List String) (audioDir : Option String) :
    commandDecoder (.record [("program", .string program), ("args", .array (args.map .string)),
      ("audio_dir", .ofOption .string audioDir)]) = .ok (.command program args audioDir) := by
  have hitems : list string (.array (args.map .string)) = .ok args := list_array string_reread args
  have hdirectory := nullable_ofOption string_reread (fun _ => nofun) audioDir
  rw [commandDecoder]
  exact completeRecord_of_record (record_reread rfl (by decide)
    (.cons (string_reread program) (.cons hitems (.cons hdirectory .nil)))) rfl

theorem reread (notifier : NotifierConfig) : decoder (toJson notifier) = .ok notifier := by
  cases notifier with
  | log =>
    rw [decoder, toJson]
    exact tagged_record (d := unit NotifierConfig.log) [] (by simp) (by simp) (by simp) rfl
  | command program args audioDir =>
    rw [decoder, toJson]
    refine (tagged_record _ ?_ ?_ (by simp [tagName]) rfl).trans
      (commandDecoder_reread program args audioDir)
    · cases audioDir <;> simp [allItems_strings, ofOption, isPlain, Json.all, isPlainOutside]
    · cases audioDir <;> simp [depthOfItems_strings, ofOption, depth]

end NotifierConfig

theorem AudioConfig.reread (audio : AudioConfig) : decoder (toJson audio) = .ok audio := by
  have hannouncements := PrayerTable.reread string_reread audio.announcementFiles
  rw [decoder, toJson]
  exact record_reread rfl (by decide) (.cons (string_reread audio.azanFile)
    (.cons (string_reread audio.fajrAzanFile) (.cons hannouncements .nil)))

theorem EngineConfig.reread (config : EngineConfig) : decoder (toJson config) = .ok config := by
  rw [decoder, toJson]
  exact record_reread rfl (by decide) (.cons (int32_reread _) (.cons (int64_reread _)
    (.cons (TimeOfDay.reread _) (.cons (uint64_reread _) .nil))))

theorem SchedulerConfig.reread (config : SchedulerConfig) :
    decoder (toJson config) = .ok config := by
  rw [decoder, toJson]
  exact record_reread rfl (by decide) (.cons (Storage.reread _) (.cons (Storage.reread _)
    (.cons (NotifierConfig.reread _) (.cons (AudioConfig.reread _)
      (.cons (EngineConfig.reread _) .nil)))))

namespace Timetable

/-- The calendar has all dates of the timetable. -/
def InCalendar (table : Timetable) : Prop :=
  ∀ day ∈ table.days.toList, Date.first ≤ day.1 ∧ day.1 ≤ Date.last

theorem reread {table : Timetable} (hdates : table.InCalendar) :
    decoder (toJson table) = .ok table := by
  have hnames (e : Date × RawTimes) (he : e ∈ table.days.toList) :
      dateName e.1.render = .ok e.1 := by
    rw [dateName, Date.parse?_render (hdates e he).1 (hdates e he).2]
  have hdays : (Decoder.entries dateName RawTimes.decoder (.record
      (table.days.toList.map fun e => (e.1.render, RawTimes.toJson e.2)))).map SortedMap.ofList =
      .ok table.days := by
    rw [entries_record Date.render RawTimes.toJson hnames fun e _ => RawTimes.reread e.2]
    exact congrArg Except.ok (SortedMap.ofList_toList table.days)
  have hfallback := nullable_ofOption RawTimes.reread (fun _ => nofun) table.fallback
  rw [decoder, toJson]
  exact record_reread rfl (by decide)
    (.cons (IqamahOffsets.reread table.offsets) (.cons hdays (.cons hfallback .nil)))

theorem inCalendar_of_dateName {text : String} {date : Date} (hnamed : dateName text = .ok date) :
    Date.first ≤ date ∧ date ≤ Date.last := by
  rw [dateName] at hnamed
  split at hnamed
  · next hparsed =>
    cases hnamed
    exact Date.mem_calendar_of_parse? hparsed
  · cases hnamed

theorem inCalendar_of_decoder {table : Timetable} {j : Json} (hread : decoder j = .ok table) :
    table.InCalendar := by
  rw [decoder] at hread
  refine record_keeps (p := InCalendar) (fun f hf v s s' hholds hone => ?_) ?_ hread
  · simp only [List.mem_cons, List.not_mem_nil, or_false] at hf
    rcases hf with rfl | rfl | rfl
    · obtain ⟨_, -, rfl⟩ := read_field hone
      exact hholds
    · obtain ⟨days, hdecoded, rfl⟩ := read_field hone
      intro day hlisted
      obtain ⟨es, hread, rfl⟩ := map_eq_ok_iff.1 hdecoded
      obtain ⟨text, hnamed⟩ := name_of_entries hread (SortedMap.mem_of_mem_ofList hlisted)
      exact inCalendar_of_dateName hnamed
    · obtain ⟨_, -, rfl⟩ := read_field hone
      exact hholds
  · intro day hlisted
    cases hlisted

end Timetable

/-- Decoding undoes encoding for every persisted type, and a document that was accepted is settled
once and for all by what its value is written as: spellings, letter case, defaults that were left
out and an iqamah at sunrise make no difference from then on. -/
theorem decoding_undoes_encoding :
    RoundTrips SchedulerConfig.toJson SchedulerConfig.decoder (fun _ => True) ∧
    RoundTrips Timetable.toJson Timetable.decoder Timetable.InCalendar ∧
    RoundTrips SavedSettings.toJson SavedSettings.decoder (fun _ => True) ∧
    RoundTrips PrayerTimes.toJson PrayerTimes.decoder (fun _ => True) ∧
    RoundTrips PrayerSettings.toJson PrayerSettings.decoder (fun _ => True) ∧
    RoundTrips IqamahOffsets.toJson IqamahOffsets.decoder (fun _ => True) ∧
    RoundTrips FeatureFlags.toJson FeatureFlags.decoder (fun _ => True) :=
  ⟨.of_reread SchedulerConfig.reread,
    .of_admissible (fun _ => Timetable.reread) fun _ _ => Timetable.inCalendar_of_decoder,
    .of_reread SavedSettings.reread, .of_reread PrayerTimes.reread,
    .of_reread PrayerSettings.reread, .of_reread IqamahOffsets.reread,
    .of_reread FeatureFlags.reread⟩

/-- A timetable of one date is read back from a text with blanks, and what is read from other
spellings and an iqamah at sunrise is written without them. -/
theorem decoding_undoes_encoding_spellings :
    let table : Timetable :=
      { offsets := { maghrib := some 5 }
        days := .ofList [(⟨20745⟩, .ofList [("dhuhr", "noon")])] }
    let text := "\x7b \"iqamah_offsets\": \x7b\"maghrib\": 5\x7d,
      \"days\": \x7b\"2026-10-19\": \x7b\"dhuhr\": \"noon\"\x7d\x7d, \"default\": null\x7d"
    let loose : Json := .record
      [("start_times", .record [("Dhuhr", .string " 12:5 "), ("sunrise", .string "06:40")]),
       ("iqamah_times", .record [("sunrise", .string "06:50"), ("ZUHR", .string "12:20")])]
    let times : PrayerTimes :=
      .new { sunrise := some ⟨400, by decide⟩, zuhr := some ⟨725, by decide⟩ }
        { zuhr := some ⟨740, by decide⟩ }
    table.InCalendar ∧ Document.read text = ⟨table.toJson, false⟩ ∧
      Timetable.decoder table.toJson = .ok table ∧
      Decoder.document Timetable.decoder text = .ok table ∧
      PrayerTimes.decoder loose = .ok times ∧ PrayerTimes.decoder times.toJson = .ok times := by
  intro table text loose times
  obtain ⟨-, htimetables, -, hprayerTimes, -⟩ := decoding_undoes_encoding
  have hcalendar : table.InCalendar := by
    unfold table Timetable.InCalendar
    decide
  have hread : Document.read text = ⟨table.toJson, false⟩ := by
    unfold text table
    cbv
  have hloose : PrayerTimes.decoder loose = .ok times := by decide +kernel
  exact ⟨hcalendar, hread, htimetables.reread table hcalendar,
    htimetables.document table text hcalendar hread, hloose,
    hprayerTimes.settled loose times hloose⟩

end Muezzin
