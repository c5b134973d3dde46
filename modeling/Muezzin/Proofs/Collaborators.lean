import Muezzin.Proofs.Decoding
import Muezzin.Proofs.Replacement

/-!
# Files and memory answer alike

A timetable file keeps texts and converts the day that is asked for, each time anew; a memory is
told converted days once. A settings file leaves out what was never saved; a memory has yet to be
set. Whatever a file holds, a memory that was told the same answers the same on every date, and a
missing file is an empty memory. So a rebuild comes to the same with either, but for the remarks
about texts that are no times, which only a file can make.
-/

namespace Muezzin

/-- Something that a memory of prayer times can be told. -/
structure Entry where
  date? : Option Date
  times : PrayerTimes
  deriving DecidableEq

namespace MemoryTimes

def tell (m : MemoryTimes) (entry : Entry) : MemoryTimes :=
  match entry.date? with
  | some date => m.insert date entry.times
  | none => m.setDefault (some entry.times)

def ofEntries (entries : List Entry) : MemoryTimes :=
  entries.foldl tell .empty

def kept? (m : MemoryTimes) : Option Date → Option PrayerTimes
  | some date => m.days.get? date
  | none => m.fallback

theorem kept?_tell_self (m : MemoryTimes) (entry : Entry) :
    (m.tell entry).kept? entry.date? = some entry.times := by
  obtain ⟨_ | date, times⟩ := entry
  · rfl
  · exact SortedMap.get?_insert_self m.days date times

theorem kept?_tell_of_ne (m : MemoryTimes) {entry : Entry} {date? : Option Date}
    (hother : date? ≠ entry.date?) : (m.tell entry).kept? date? = m.kept? date? := by
  obtain ⟨_ | told, times⟩ := entry <;> cases date? with
  | none => first | exact absurd rfl hother | rfl
  | some date =>
    first
    | rfl
    | exact SortedMap.get?_insert_of_ne m.days
        (fun hsame => hother (congrArg some (Std.LawfulEqOrd.eq_of_compare hsame))) times

theorem kept?_foldl_of_notMem {date? : Option Date} {told : List Entry} (m : MemoryTimes)
    (habsent : ∀ entry ∈ told, entry.date? ≠ date?) :
    (told.foldl tell m).kept? date? = m.kept? date? := by
  induction told generalizing m with
  | nil => rfl
  | cons entry told ih =>
    rw [List.foldl_cons, ih _ fun f hf => habsent f (List.mem_cons_of_mem entry hf)]
    exact kept?_tell_of_ne m (habsent entry List.mem_cons_self).symm

/-- The only entry of a date is kept, in whatever order the entries were told. -/
theorem kept?_foldl_of_mem {entry : Entry} {told : List Entry} (m : MemoryTimes)
    (hmem : entry ∈ told) (honly : ∀ f ∈ told, f.date? = entry.date? → f = entry) :
    (told.foldl tell m).kept? entry.date? = some entry.times := by
  induction told generalizing m with
  | nil => cases hmem
  | cons f told ih =>
    rw [List.foldl_cons]
    by_cases hlater : entry ∈ told
    · exact ih (m.tell f) hlater fun g hg => honly g (List.mem_cons_of_mem f hg)
    · obtain rfl : entry = f := (List.mem_cons.1 hmem).resolve_right hlater
      have habsent : ∀ g ∈ told, g.date? ≠ entry.date? := fun g hg hsame =>
        hlater (honly g (List.mem_cons_of_mem entry hg) hsame ▸ hg)
      rw [kept?_foldl_of_notMem _ habsent]
      exact kept?_tell_self m entry

end MemoryTimes

namespace PrayerTimes

/-- Every name of a raw day is one of the accepted spellings of a slot. -/
def Named (raw : RawTimes) : Prop :=
  ∀ entry ∈ raw.toList, (Prayer.ofSpelling? (Prayer.foldName entry.1)).isSome

theorem enter_of_named {es : List (String × String)}
    (hnamed : ∀ e ∈ es, (Prayer.ofSpelling? (Prayer.foldName e.1)).isSome)
    (table : PrayerTable TimeOfDay) : ∃ result, enter table es = .ok result := by
  induction es generalizing table with
  | nil => exact ⟨table, rfl⟩
  | cons e es ih =>
    obtain ⟨p, hspelled⟩ := Option.isSome_iff_exists.1 (hnamed e List.mem_cons_self)
    have hparsed : Prayer.parse e.1 = .ok p := by rw [Prayer.parse, hspelled]
    obtain ⟨result, hrest⟩ := ih (fun f hf => hnamed f (List.mem_cons_of_mem e hf))
      (table.insert p (Iqamah.azanOrMidnight e.2))
    refine ⟨result, ?_⟩
    rw [enter, hparsed]
    exact hrest

theorem ofRaw_of_named {raw : RawTimes} (hnamed : Named raw) (offsets : IqamahOffsets) :
    ∃ times, ofRaw raw offsets = .ok times := by
  obtain ⟨starts, hentered⟩ := enter_of_named hnamed .empty
  exact ⟨ofStarts starts offsets, by rw [ofRaw, hentered]; rfl⟩

end PrayerTimes

namespace Timetable

def raw? (table : Timetable) : Option Date → Option RawTimes
  | some date => table.days.get? date
  | none => table.fallback

def listing (table : Timetable) : List (Option Date × RawTimes) :=
  table.days.toList.map (fun day => (some day.1, day.2)) ++ table.fallback.toList.map (none, ·)

def convert (offsets : IqamahOffsets) (day : Option Date × RawTimes) : Except Error Entry :=
  (PrayerTimes.ofRaw day.2 offsets).map (⟨day.1, ·⟩)

/-- What a memory has to be told of the timetable. -/
def entries (table : Timetable) : Except Error (List Entry) :=
  table.listing.mapM (convert table.offsets)

/-- The offsets are ones that the iqamah calculator takes, and all names mean a slot. -/
structure Convertible (table : Timetable) : Prop where
  offsets : table.offsets.validate = .ok ()
  named : ∀ day ∈ table.listing, PrayerTimes.Named day.2

variable {table : Timetable}

theorem mem_listing_iff {date? : Option Date} {raw : RawTimes} :
    (date?, raw) ∈ table.listing ↔ table.raw? date? = some raw := by
  cases date? with
  | none => simp [listing, raw?]
  | some date =>
    have hfound : (date, raw) ∈ table.days.toList ↔ table.days.get? date = some raw :=
      ⟨SortedMap.get?_of_mem, SortedMap.mem_of_get?⟩
    simpa [listing, raw?] using hfound

theorem exists_entries (hconvertible : table.Convertible) :
    ∃ entries, table.entries = .ok entries :=
  exists_mapM_eq_ok fun day hlisted => by
    obtain ⟨times, hconverted⟩ :=
      PrayerTimes.ofRaw_of_named (hconvertible.named day hlisted) table.offsets
    exact ⟨⟨day.1, times⟩, by rw [convert, hconverted]; rfl⟩

theorem mem_entries_iff {es : List Entry} (hconverted : table.entries = .ok es) {entry : Entry} :
    entry ∈ es ↔ ∃ raw, table.raw? entry.date? = some raw ∧
      PrayerTimes.ofRaw raw table.offsets = .ok entry.times := by
  rw [mem_of_mapM_eq_ok hconverted]
  constructor
  · rintro ⟨⟨date?, raw⟩, hlisted, hone⟩
    obtain ⟨times, hofRaw, rfl⟩ := map_eq_ok_iff.1 hone
    exact ⟨raw, mem_listing_iff.1 hlisted, hofRaw⟩
  · rintro ⟨raw, hlisted, htimes⟩
    exact ⟨(entry.date?, raw), mem_listing_iff.2 hlisted, by rw [convert, htimes]; rfl⟩

section Told

variable {es told : List Entry} (hconverted : table.entries = .ok es) (horder : told.Perm es)
include hconverted horder

theorem kept?_of_unlisted {date? : Option Date} (hunlisted : table.raw? date? = none) :
    (MemoryTimes.ofEntries told).kept? date? = none := by
  have habsent : ∀ entry ∈ told, entry.date? ≠ date? := by
    rintro entry hmem rfl
    obtain ⟨raw, hlisted, -⟩ := (mem_entries_iff hconverted).1 (horder.mem_iff.1 hmem)
    simp [hunlisted] at hlisted
  rw [MemoryTimes.ofEntries, MemoryTimes.kept?_foldl_of_notMem _ habsent]
  cases date? <;> rfl

theorem kept?_of_listed {date? : Option Date} {raw : RawTimes} {times : PrayerTimes}
    (hlisted : table.raw? date? = some raw)
    (hofRaw : PrayerTimes.ofRaw raw table.offsets = .ok times) :
    (MemoryTimes.ofEntries told).kept? date? = some times := by
  have hmem : ⟨date?, times⟩ ∈ told :=
    horder.mem_iff.2 ((mem_entries_iff hconverted).2 ⟨raw, hlisted, hofRaw⟩)
  refine MemoryTimes.kept?_foldl_of_mem .empty hmem fun f hf hsame => ?_
  obtain ⟨raw', hlisted', hofRaw'⟩ := (mem_entries_iff hconverted).1 (horder.mem_iff.1 hf)
  obtain ⟨date?', times'⟩ := f
  obtain rfl : date?' = date? := hsame
  obtain rfl : raw = raw' := by simpa [hlisted] using hlisted'
  obtain rfl : times = times' := by simpa [hofRaw] using hofRaw'
  rfl

/-- A memory that was told a timetable in any order answers like it on every date. -/
theorem timesOn_eq (hconvertible : table.Convertible) (date : Date) :
    table.timesOn date = .ok ((MemoryTimes.ofEntries told).timesOn date) := by
  have hmemory : (MemoryTimes.ofEntries told).timesOn date =
      ((MemoryTimes.ofEntries told).kept? (some date)).or
        ((MemoryTimes.ofEntries told).kept? none) := rfl
  rw [timesOn, hconvertible.offsets]
  cases hanswer : table.rawOn date with
  | none =>
    obtain ⟨hday, hfallback⟩ := Option.or_eq_none_iff.1 hanswer
    have hnoDay : table.raw? (some date) = none := hday
    have hnoFallback : table.raw? none = none := hfallback
    rw [hmemory, kept?_of_unlisted hconverted horder hnoDay, Option.none_or,
      kept?_of_unlisted hconverted horder hnoFallback]
    rfl
  | some raw =>
    obtain ⟨date?, hlisted, hprecedence⟩ : ∃ date?, table.raw? date? = some raw ∧
        (date? = some date ∨ date? = none ∧ table.raw? (some date) = none) := by
      rcases Option.or_eq_some_iff.1 hanswer with hday | ⟨hday, hfallback⟩
      · exact ⟨some date, hday, .inl rfl⟩
      · exact ⟨none, hfallback, .inr ⟨rfl, hday⟩⟩
    obtain ⟨times, hofRaw⟩ :=
      PrayerTimes.ofRaw_of_named (hconvertible.named _ (mem_listing_iff.2 hlisted)) table.offsets
    have hkept : (MemoryTimes.ofEntries told).timesOn date = some times := by
      rw [hmemory]
      rcases hprecedence with rfl | ⟨rfl, hday⟩
      · rw [kept?_of_listed hconverted horder hlisted hofRaw, Option.some_or]
      · rw [kept?_of_unlisted hconverted horder hday, Option.none_or,
          kept?_of_listed hconverted horder hlisted hofRaw]
    rw [hkept]
    show (PrayerTimes.ofRaw raw table.offsets).map some = _
    rw [hofRaw]
    rfl

end Told

end Timetable

namespace TimesFile

/-- The memory was told what the timetable in the file lists, in some order; nothing, if there is no
such file. -/
def ToldTo (file : TimesFile) (host : Host) (m : MemoryTimes) : Prop :=
  match file.read host with
  | .error _ => False
  | .ok none => m = .empty
  | .ok (some table) =>
    ∃ entries told, table.entries = .ok entries ∧ told.Perm entries ∧ m = .ofEntries told

/-- There is no such file, or it holds a timetable that can be converted. -/
def Convertible (file : TimesFile) (host : Host) : Prop :=
  ∃ table?, file.read host = .ok table? ∧ ∀ table ∈ table?, table.Convertible

variable {file : TimesFile} {host : Host} {m : MemoryTimes}

theorem exists_toldTo (hconvertible : file.Convertible host) : ∃ m, file.ToldTo host m := by
  obtain ⟨_ | table, hread, hsound⟩ := hconvertible
  · exact ⟨.empty, by rw [ToldTo, hread]⟩
  · obtain ⟨entries, hconverted⟩ := Timetable.exists_entries (hsound table rfl)
    refine ⟨.ofEntries entries, ?_⟩
    rw [ToldTo, hread]
    exact ⟨entries, entries, hconverted, .refl entries, rfl⟩

theorem timesOn_eq_of_toldTo (hconvertible : file.Convertible host) (htold : file.ToldTo host m) :
    file.timesOn host = m.source.times := by
  funext date
  obtain ⟨_ | table, hread, hsound⟩ := hconvertible
  · rw [ToldTo, hread] at htold
    rw [timesOn, hread, htold]
    rfl
  · rw [ToldTo, hread] at htold
    obtain ⟨entries, told, hconverted, horder, rfl⟩ := htold
    rw [timesOn, hread]
    exact Timetable.timesOn_eq hconverted horder (hsound table rfl) date

end TimesFile

namespace SettingsFile

/-- The memory holds what was saved in the file; it is still to be set if there is no such file. -/
def HeldBy (file : SettingsFile) (host : Host) (m : MemorySettings) : Prop :=
  match file.read host with
  | .error _ => False
  | .ok none => m.prayers = none ∧ m.flags = {}
  | .ok (some saved) => m.prayers = saved.prayers ∧ m.flags = saved.flags

variable {file : SettingsFile} {host : Host} {m : MemorySettings}

theorem exists_heldBy {saved? : Option SavedSettings} (hread : file.read host = .ok saved?) :
    ∃ m, file.HeldBy host m := by
  cases saved? with
  | none => exact ⟨.empty, by rw [HeldBy, hread]; exact ⟨rfl, rfl⟩⟩
  | some saved =>
    exact ⟨{ prayers := saved.prayers, flags := saved.flags }, by
      rw [HeldBy, hread]; exact ⟨rfl, rfl⟩⟩

theorem store_eq_of_heldBy (hheld : file.HeldBy host m) : file.store host = m.store := by
  rw [store, settings, flags, MemorySettings.store]
  rw [HeldBy] at hheld
  split at hheld
  · exact hheld.elim
  · next hread => rw [hread, hheld.1, hheld.2]; rfl
  · next hread => rw [hread, hheld.1, hheld.2]; rfl

end SettingsFile

namespace Action

def isMisread : Action → Bool
  | misread _ => true
  | _ => false

end Action

namespace Outcome

/-- Two outcomes are alike but for remarks about texts that are no times. -/
structure Alike (o p : Outcome) : Prop where
  engine : o.engine = p.engine
  actions : o.actions.filter (!·.isMisread) = p.actions.filter (!·.isMisread)

theorem Alike.refl (o : Outcome) : o.Alike o :=
  ⟨rfl, rfl⟩

theorem Alike.andThen {o p : Outcome} (halike : o.Alike p) {next other : Engine → Outcome}
    (honward : ∀ e, (next e).Alike (other e)) : (o.andThen next).Alike (p.andThen other) := by
  constructor
  · show (next o.engine).engine = (other p.engine).engine
    rw [halike.engine, (honward p.engine).engine]
  · show (o.actions ++ (next o.engine).actions).filter _ =
      (p.actions ++ (other p.engine).actions).filter _
    rw [List.filter_append, List.filter_append, halike.actions, halike.engine,
      (honward p.engine).actions]

/-- Whoever does not look at these remarks sees no difference. -/
theorem Alike.view {β : Type} {o p : Outcome} (halike : o.Alike p) (view : Action → Option β)
    (hblind : ∀ complaint, view (.misread complaint) = none) :
    o.actions.filterMap view = p.actions.filterMap view := by
  have hunremarked (as : List Action) :
      as.filterMap view = (as.filter (!·.isMisread)).filterMap view := by
    rw [List.filterMap_filter]
    apply List.filterMap_congr
    intro a _
    cases a with
    | misread complaint => exact hblind complaint
    | _ => rfl
  rw [hunremarked o.actions, hunremarked p.actions, halike.actions]

end Outcome

namespace Engine

section Inputs

variable {j k : Inputs}

/-- What was claimed is checked against the switches alone. -/
theorem settleAll_congr (hrecheck : j.recheck = k.recheck) (rs : List Registration) (e : Engine) :
    settleAll j rs e = settleAll k rs e := by
  obtain ⟨_, _, _⟩ := j
  subst hrecheck
  induction rs generalizing e with
  | nil => rfl
  | cons r rs ih =>
    rw [settleAll, settleAll, funext ih]
    rfl

variable (hstore : j.toSettingsStore = k.toSettingsStore) (htimes : j.times = k.times)
include hstore htimes

theorem load_congr (date : Date) : j.load date = k.load date := by
  obtain ⟨⟨_, complaints⟩, _, _⟩ := j
  subst htimes hstore
  rfl

theorem alike_build (e : Engine) (cancelled : Nat) :
    (e.build j cancelled).Alike (e.build k cancelled) := by
  have hremarks : (⟨e, j.remarks e.clock.date⟩ : Outcome).Alike ⟨e, k.remarks e.clock.date⟩ :=
    ⟨rfl, by simp [Inputs.remarks, List.filter_map, Function.comp_def, Action.isMisread]⟩
  simp only [build, load_congr hstore htimes]
  exact hremarks.andThen fun f => .refl _

/-- A rebuild with the same answers comes to the same. -/
theorem alike_rebuild (hrecheck : j.recheck = k.recheck) (e : Engine) :
    (e.rebuild j).Alike (e.rebuild k) := by
  have hdelivered : e.deliverDue j = e.deliverDue k := settleAll_congr hrecheck _ _
  rw [rebuild, rebuild, hdelivered]
  exact (Outcome.Alike.refl _).andThen fun f =>
    (Outcome.Alike.refl _).andThen fun g => alike_build hstore htimes g f.clear.1

end Inputs

end Engine

/-- On every date a timetable file answers as a memory does that was told its days in any order, a
settings file answers as a memory does that holds what was saved, and missing files answer as
memories that were told nothing. So a rebuild on the files leaves the engine as one on the memories
leaves it, tells listeners the same and hands the same on to be played. -/
theorem files_agree_with_memory (times : TimesFile) (settings : SettingsFile) (host : Host) :
    (times.Convertible host →
      (∃ m, times.ToldTo host m) ∧
      ∀ m, times.ToldTo host m → ∀ date, times.timesOn host date = .ok (m.timesOn date)) ∧
    (∀ saved?, settings.read host = .ok saved? → ∃ s, settings.HeldBy host s) ∧
    (∀ s, settings.HeldBy host s →
      settings.settings host = .ok s.prayers ∧ settings.flags host = .ok s.flags) ∧
    ∀ m s, times.Convertible host → times.ToldTo host m → settings.HeldBy host s →
      ∀ e : Engine,
        let onFiles := e.rebuild (.steady (times.source host) (settings.store host))
        let inMemory := e.rebuild (.steady m.source s.store)
        onFiles.engine = inMemory.engine ∧ onFiles.events = inMemory.events ∧
          onFiles.actions.filterMap Action.delivery? =
            inMemory.actions.filterMap Action.delivery? := by
  refine ⟨fun hconvertible => ⟨TimesFile.exists_toldTo hconvertible, fun m htold date => ?_⟩,
    fun saved? hread => SettingsFile.exists_heldBy hread, fun s hheld => ?_,
    fun m s hconvertible htold hheld e => ?_⟩
  · exact congrFun (TimesFile.timesOn_eq_of_toldTo hconvertible htold) date
  · have hstore := SettingsFile.store_eq_of_heldBy hheld
    exact ⟨congrArg SettingsStore.settings hstore, congrArg SettingsStore.flags hstore⟩
  · have hstore := SettingsFile.store_eq_of_heldBy hheld
    have halike := Engine.alike_rebuild (j := .steady (times.source host) (settings.store host))
      (k := .steady m.source s.store) hstore
      (TimesFile.timesOn_eq_of_toldTo hconvertible htold) (funext fun _ => hstore) e
    exact ⟨halike.engine, halike.view Action.event? fun _ => rfl,
      halike.view Action.delivery? fun _ => rfl⟩

/-- One date has a slot under another name and a text that is no time, and the memory is told of all
other dates before it; settings were never saved. -/
theorem files_agree_with_memory_aliases :
    ∃ (host : Host) (m : MemoryTimes),
      TimesFile.Convertible ⟨"times.json"⟩ host ∧ TimesFile.ToldTo ⟨"times.json"⟩ host m ∧
      SettingsFile.HeldBy ⟨"settings.json"⟩ host .empty ∧
      (m.timesOn ⟨20745⟩).map (·.starts) = some { zuhr := some .midnight } ∧
      (m.timesOn ⟨20746⟩).map (·.starts) = some { maghrib := some ⟨1080, by decide⟩ } ∧
      (∀ date, TimesFile.timesOn ⟨"times.json"⟩ host date = .ok (m.timesOn date)) ∧
      ∀ e : Engine,
        (e.rebuild (.steady (TimesFile.source ⟨"times.json"⟩ host)
          (SettingsFile.store ⟨"settings.json"⟩ host))).events =
        (e.rebuild (.steady m.source MemorySettings.empty.store)).events := by
  let text := "\x7b\"iqamah_offsets\":\x7b\"maghrib\":5\x7d,
    \"days\":\x7b\"2026-10-19\":\x7b\"dhuhr\":\"noon\"\x7d\x7d,
    \"default\":\x7b\"Maghrib\":\"18:00\"\x7d\x7d"
  let host := (({} : Tree).write "times.json" (some (.file text.toUTF8))).host
  let table : Timetable :=
    { offsets := { maghrib := some 5 }
      days := .ofList [(⟨20745⟩, .ofList [("dhuhr", "noon")])]
      fallback := some (.ofList [("Maghrib", "18:00")]) }
  let day : Entry := ⟨some ⟨20745⟩, .ofStarts { zuhr := some .midnight } table.offsets⟩
  let others : Entry := ⟨none, .ofStarts { maghrib := some ⟨1080, by decide⟩ } table.offsets⟩
  have hread : TimesFile.read ⟨"times.json"⟩ host = .ok (some table) := by decide +kernel
  have hunsaved : SettingsFile.read ⟨"settings.json"⟩ host = .ok none := by decide +kernel
  have hnamed : ∀ raw ∈ table.listing, PrayerTimes.Named raw.2 := by
    unfold PrayerTimes.Named
    decide +kernel
  have hconverted : table.entries = .ok [day, others] := by decide +kernel
  have hconvertible : TimesFile.Convertible ⟨"times.json"⟩ host :=
    ⟨some table, hread, fun t ht => Option.some_inj.1 ht ▸ ⟨rfl, hnamed⟩⟩
  have htold : TimesFile.ToldTo ⟨"times.json"⟩ host (.ofEntries [others, day]) := by
    rw [TimesFile.ToldTo, hread]
    exact ⟨_, _, hconverted, .swap _ _ _, rfl⟩
  have hheld : SettingsFile.HeldBy ⟨"settings.json"⟩ host .empty := by
    rw [SettingsFile.HeldBy, hunsaved]
    exact ⟨rfl, rfl⟩
  have hagree := files_agree_with_memory ⟨"times.json"⟩ ⟨"settings.json"⟩ host
  exact ⟨host, _, hconvertible, htold, hheld, rfl, rfl, (hagree.1 hconvertible).2 _ htold,
    fun e => (hagree.2.2.2 _ _ hconvertible htold hheld e).2.1⟩

end Muezzin
