import Mathlib
import Muezzin.PrayerTimes
import Muezzin.Proofs.Attempts
import Muezzin.Proofs.ByteOrder
import Muezzin.Proofs.TimeTexts

/-!
# The day that a timetable spells

A timetable gives a day as texts under names, in the byte order of the names. The day fails for a
name that means no slot and for nothing else, and the first such name is what it reports. Of the
names that mean one slot the last decides, by a time or by a text that counts as midnight. So a text
has a part in no slot but its own, and it has no part in whether the day fails.
-/

namespace Muezzin

namespace Prayer

def spellings : List (String × Prayer) :=
  [("fajr", .fajr), ("sunrise", .sunrise), ("shuruq", .sunrise), ("zuhr", .zuhr), ("dhuhr", .zuhr),
    ("duhr", .zuhr), ("asr", .asr), ("maghrib", .maghrib), ("isha", .isha)]

/-- The text is the name without the blanks around it and with its ASCII letters in lower case. -/
def Folds (name text : String) : Prop :=
  ∃ core, Text.Trims name.toList core ∧ text = String.ofList (core.map Char.toLower)

def Means (name : String) (p : Prayer) : Prop :=
  ∃ text, Folds name text ∧ (text, p) ∈ spellings

theorem folds_iff {name text : String} : Folds name text ↔ foldName name = text := by
  simp [Folds, Text.trims_iff, foldName, Text.lower, eq_comm]

theorem ofSpelling?_eq_some_iff {text : String} {p : Prayer} :
    ofSpelling? text = some p ↔ (text, p) ∈ spellings := by
  constructor
  · intro hspelled
    unfold ofSpelling? at hspelled
    split at hspelled
    all_goals cases hspelled
    all_goals decide
  · intro hlisted
    simp only [spellings, List.mem_cons, List.not_mem_nil, or_false, Prod.mk.injEq] at hlisted
    rcases hlisted with h | h | h | h | h | h | h | h | h
    all_goals rw [h.1, h.2]; rfl

theorem means_iff {name : String} {p : Prayer} :
    Means name p ↔ ofSpelling? (foldName name) = some p := by
  simp [Means, folds_iff, ofSpelling?_eq_some_iff]

theorem parse_eq_ok_iff {name : String} {p : Prayer} : parse name = .ok p ↔ Means name p := by
  rw [means_iff, parse]
  cases ofSpelling? (foldName name) <;> simp

theorem parse_of_meaningless {name : String} (hmeaningless : ∀ p, ¬ Means name p) :
    parse name = .error (.unknownPrayer (foldName name)) := by
  have hnone : ofSpelling? (foldName name) = none :=
    Option.eq_none_iff_forall_ne_some.2 fun p h => hmeaningless p (means_iff.2 h)
  rw [parse, hnone]

end Prayer

namespace PrayerTimes

open Prayer (Means Folds)

/-- Of the names of the day that mean no slot, the first in the order of bytes. -/
structure Spoils (raw : RawTimes) (name : String) : Prop where
  listed : ∃ text, (name, text) ∈ raw.toList
  meaningless : ∀ p, ¬ Means name p
  first : ∀ other ∈ raw.toList, (∀ p, ¬ Means other.1 p) → Text.bytes name ≤ Text.bytes other.1

/-- Of the names of the day that mean the slot, the last in the order of bytes, and its text. -/
structure Decides (raw : RawTimes) (p : Prayer) (name text : String) : Prop where
  listed : (name, text) ∈ raw.toList
  means : Means name p
  last : ∀ other ∈ raw.toList, Means other.1 p → Text.bytes other.1 ≤ Text.bytes name

/-- The text is of the time, or of no time, and then the time is midnight. -/
def Counts (text : String) (t : TimeOfDay) : Prop :=
  TimeOfDay.parse text = .ok t ∨ (∃ e, TimeOfDay.parse text = .error e) ∧ t = .midnight

theorem counts_iff {text : String} {t : TimeOfDay} :
    Counts text t ↔ Iqamah.azanOrMidnight text = t := by
  rw [Counts, Iqamah.azanOrMidnight]
  cases TimeOfDay.parse text <;> simp [eq_comm]

/-! ### Entering one after another -/

section Enter

variable {table result : PrayerTable TimeOfDay} {es before after : List (String × String)}
  {name text : String} {p : Prayer} {e : Error}

theorem enter_cons_of_means (hmeans : Means name p) :
    enter table ((name, text) :: after) =
      enter (table.insert p (Iqamah.azanOrMidnight text)) after := by
  rw [enter, Prayer.parse_eq_ok_iff.2 hmeans]

theorem enter_cons_of_meaningless (hmeaningless : ∀ p, ¬ Means name p) :
    enter table ((name, text) :: after) = .error (.unknownPrayer (Prayer.foldName name)) := by
  rw [enter, Prayer.parse_of_meaningless hmeaningless]

theorem enter_append (table : PrayerTable TimeOfDay) (es fs : List (String × String)) :
    enter table (es ++ fs) = (enter table es).bind (enter · fs) := by
  induction es generalizing table with
  | nil => rfl
  | cons entry es ih =>
    rw [List.cons_append, enter, enter]
    cases Prayer.parse entry.1 with
    | ok p => exact ih _
    | error e => rfl

/-- The names are gone through up to the first one that means no slot. -/
theorem enter_eq_error_iff :
    enter table es = .error e ↔ ∃ before name text after, es = before ++ (name, text) :: after ∧
      (∀ f ∈ before, ∃ p, Means f.1 p) ∧ (∀ p, ¬ Means name p) ∧
      e = .unknownPrayer (Prayer.foldName name) := by
  constructor
  · intro hrefused
    induction es generalizing table with
    | nil => cases hrefused
    | cons entry es ih =>
      obtain ⟨name, text⟩ := entry
      by_cases hknown : ∃ p, Means name p
      · obtain ⟨p, hmeans⟩ := hknown
        rw [enter_cons_of_means hmeans] at hrefused
        obtain ⟨before, name', text', after, rfl, hfine, hmeaningless, rfl⟩ := ih hrefused
        exact ⟨(name, text) :: before, name', text', after, rfl,
          List.forall_mem_cons.2 ⟨⟨p, hmeans⟩, hfine⟩, hmeaningless, rfl⟩
      · have hmeaningless := not_exists.1 hknown
        rw [enter_cons_of_meaningless hmeaningless] at hrefused
        cases hrefused
        exact ⟨[], name, text, es, rfl, nofun, hmeaningless, rfl⟩
  · rintro ⟨before, name, text, after, rfl, hfine, hmeaningless, rfl⟩
    induction before generalizing table with
    | nil => exact enter_cons_of_meaningless hmeaningless
    | cons entry before ih =>
      obtain ⟨⟨p, hmeans⟩, hfine⟩ := List.forall_mem_cons.1 hfine
      rw [List.cons_append, enter_cons_of_means hmeans]
      exact ih hfine

theorem get?_enter_of_unnamed (hentered : enter table es = .ok result)
    (hunnamed : ∀ f ∈ es, ¬ Means f.1 p) : result.get? p = table.get? p := by
  induction es generalizing table with
  | nil =>
    cases hentered
    rfl
  | cons entry es ih =>
    obtain ⟨hother, hunnamed⟩ := List.forall_mem_cons.1 hunnamed
    by_cases hknown : ∃ q, Means entry.1 q
    · obtain ⟨q, hmeans⟩ := hknown
      have hapart : p ≠ q := fun hsame => hother (hsame ▸ hmeans)
      rw [enter_cons_of_means hmeans] at hentered
      rw [ih hentered hunnamed, PrayerTable.insert, PrayerTable.get?_put_of_ne _ hapart]
    · rw [enter_cons_of_meaningless (not_exists.1 hknown)] at hentered
      cases hentered

theorem get?_enter_of_last (hentered : enter table (before ++ (name, text) :: after) = .ok result)
    (hmeans : Means name p) (hlast : ∀ f ∈ after, ¬ Means f.1 p) :
    result.get? p = some (Iqamah.azanOrMidnight text) := by
  rw [enter_append] at hentered
  obtain ⟨earlier, -, hentered⟩ := bind_eq_ok_iff.1 hentered
  rw [enter_cons_of_means hmeans] at hentered
  rw [get?_enter_of_unnamed hentered hlast, PrayerTable.insert, PrayerTable.get?_put_self]

end Enter

/-! ### First and last in the order of bytes -/

section Order

variable {raw : RawTimes} {before after : List (String × String)} {name text : String} {p : Prayer}

theorem bytes_lt_of_split (hsplit : raw.toList = before ++ (name, text) :: after) :
    (∀ f ∈ before, Text.bytes f.1 < Text.bytes name) ∧
      ∀ f ∈ after, Text.bytes name < Text.bytes f.1 := by
  have hsorted : (before ++ (name, text) :: after).Pairwise fun a b => compare a.1 b.1 = .lt :=
    hsplit ▸ raw.sorted
  obtain ⟨-, hrest, hacross⟩ := List.pairwise_append.1 hsorted
  simp only [Text.bytes_lt_iff, ← compare_lt_iff_lt]
  exact ⟨fun f hf => hacross f hf _ List.mem_cons_self, (List.pairwise_cons.1 hrest).1⟩

theorem spoils_of_split (hsplit : raw.toList = before ++ (name, text) :: after)
    (hfine : ∀ f ∈ before, ∃ p, Means f.1 p) (hmeaningless : ∀ p, ¬ Means name p) :
    Spoils raw name where
  listed := ⟨text, by simp [hsplit]⟩
  meaningless := hmeaningless
  first := by
    intro other hlisted hmeaningless'
    rw [hsplit, List.mem_append, List.mem_cons] at hlisted
    rcases hlisted with hearly | rfl | hlate
    · obtain ⟨p, hmeans⟩ := hfine other hearly
      exact absurd hmeans (hmeaningless' p)
    · exact List.le_refl _
    · exact List.le_of_lt ((bytes_lt_of_split hsplit).2 other hlate)

theorem decides_iff_split : Decides raw p name text ↔ Means name p ∧ ∃ before after,
    raw.toList = before ++ (name, text) :: after ∧ ∀ f ∈ after, ¬ Means f.1 p := by
  constructor
  · rintro ⟨hlisted, hmeans, hlast⟩
    obtain ⟨before, after, hsplit⟩ := List.append_of_mem hlisted
    refine ⟨hmeans, before, after, hsplit, fun f hf hmeans' => ?_⟩
    have hlater := hlast f (by simp [hsplit, hf]) hmeans'
    exact hlater ((bytes_lt_of_split hsplit).2 f hf)
  · rintro ⟨hmeans, before, after, hsplit, hlast⟩
    refine ⟨by simp [hsplit], hmeans, fun other hlisted hmeans' => ?_⟩
    rw [hsplit, List.mem_append, List.mem_cons] at hlisted
    rcases hlisted with hearly | rfl | hlate
    · exact List.le_of_lt ((bytes_lt_of_split hsplit).1 other hearly)
    · exact List.le_refl _
    · exact absurd hmeans' (hlast other hlate)

theorem exists_decides {entry : String × String} (hlisted : entry ∈ raw.toList)
    (hmeans : Means entry.1 p) : ∃ name text, Decides raw p name text := by
  classical
  have hsome : (raw.toList.reverse.find? fun f => decide (Means f.1 p)).isSome :=
    List.find?_isSome.2 ⟨entry, List.mem_reverse.2 hlisted, decide_eq_true hmeans⟩
  obtain ⟨found, hlast⟩ := Option.isSome_iff_exists.1 hsome
  obtain ⟨hmeans', after, before, hsplit, hlater⟩ := List.find?_eq_some_iff_append.1 hlast
  refine ⟨found.1, found.2, decides_iff_split.2 ⟨of_decide_eq_true hmeans',
    before.reverse, after.reverse, ?_, fun f hf => ?_⟩⟩
  · rw [← List.reverse_reverse raw.toList, hsplit]
    simp
  · simpa using hlater f (List.mem_reverse.1 hf)

end Order

/-! ### The whole day -/

section Whole

variable {raw : RawTimes} {offsets : IqamahOffsets} {times : PrayerTimes} {e : Error} {p : Prayer}

theorem ofRaw_eq_error_iff :
    ofRaw raw offsets = .error e ↔ enter .empty raw.toList = .error e := by
  rw [ofRaw]
  cases enter .empty raw.toList with
  | ok starts => exact iff_of_false nofun nofun
  | error fault => exact ⟨fun h => by cases h; rfl, fun h => by cases h; rfl⟩

theorem ofRaw_eq_ok_iff : ofRaw raw offsets = .ok times ↔
    ∃ starts, enter .empty raw.toList = .ok starts ∧ times = ofStarts starts offsets := by
  rw [ofRaw, bind_eq_ok_iff]
  simp [eq_comm]

theorem exists_ofRaw_eq_error_iff : (∃ e, ofRaw raw offsets = .error e) ↔
    ∃ entry ∈ raw.toList, ∀ p, ¬ Means entry.1 p := by
  simp only [ofRaw_eq_error_iff]
  constructor
  · rintro ⟨e, hrefused⟩
    obtain ⟨before, name, text, after, hsplit, -, hmeaningless, -⟩ := enter_eq_error_iff.1 hrefused
    exact ⟨(name, text), by simp [hsplit], hmeaningless⟩
  · rintro ⟨entry, hlisted, hmeaningless⟩
    cases hentered : enter .empty raw.toList with
    | error e => exact ⟨e, rfl⟩
    | ok starts =>
      -- the walk cannot have come to the end, for it stops at this entry at the latest
      obtain ⟨before, after, hsplit⟩ := List.append_of_mem hlisted
      rw [hsplit, enter_append] at hentered
      obtain ⟨earlier, -, hentered⟩ := bind_eq_ok_iff.1 hentered
      rw [enter_cons_of_meaningless hmeaningless] at hentered
      cases hentered

theorem exists_spoils_of_ofRaw (hrefused : ofRaw raw offsets = .error e) :
    ∃ name text, Spoils raw name ∧ Folds name text ∧ e = .unknownPrayer text := by
  obtain ⟨before, name, text, after, hsplit, hfine, hmeaningless, rfl⟩ :=
    enter_eq_error_iff.1 (ofRaw_eq_error_iff.1 hrefused)
  exact ⟨name, _, spoils_of_split hsplit hfine hmeaningless, Prayer.folds_iff.2 rfl, rfl⟩

theorem get?_starts_of_decides (hmade : ofRaw raw offsets = .ok times) {name text : String}
    (hdecides : Decides raw p name text) :
    times.starts.get? p = some (Iqamah.azanOrMidnight text) := by
  obtain ⟨starts, hentered, rfl⟩ := ofRaw_eq_ok_iff.1 hmade
  obtain ⟨hmeans, before, after, hsplit, hlast⟩ := decides_iff_split.1 hdecides
  rw [hsplit] at hentered
  exact get?_enter_of_last hentered hmeans hlast

theorem get?_starts_of_unnamed (hmade : ofRaw raw offsets = .ok times)
    (hunnamed : ∀ entry ∈ raw.toList, ¬ Means entry.1 p) : times.starts.get? p = none := by
  obtain ⟨starts, hentered, rfl⟩ := ofRaw_eq_ok_iff.1 hmade
  rw [← PrayerTable.get?_empty (α := TimeOfDay) p]
  exact get?_enter_of_unnamed hentered hunnamed

theorem isSome_starts_iff (hmade : ofRaw raw offsets = .ok times) :
    (times.starts.get? p).isSome ↔ ∃ entry ∈ raw.toList, Means entry.1 p := by
  constructor
  · intro hsome
    by_contra hunnamed
    have hnone := get?_starts_of_unnamed hmade fun entry hlisted hmeans =>
      hunnamed ⟨entry, hlisted, hmeans⟩
    rw [hnone] at hsome
    cases hsome
  · rintro ⟨entry, hlisted, hmeans⟩
    obtain ⟨name, text, hdecides⟩ := exists_decides hlisted hmeans
    rw [get?_starts_of_decides hmade hdecides]
    rfl

theorem get?_starts_iff (hmade : ofRaw raw offsets = .ok times) {t : TimeOfDay} :
    times.starts.get? p = some t ↔ ∃ name text, Decides raw p name text ∧ Counts text t := by
  simp only [counts_iff]
  constructor
  · intro hstarts
    obtain ⟨entry, hlisted, hmeans⟩ := (isSome_starts_iff hmade).1 (by rw [hstarts]; rfl)
    obtain ⟨name, text, hdecides⟩ := exists_decides hlisted hmeans
    rw [get?_starts_of_decides hmade hdecides, Option.some.injEq] at hstarts
    exact ⟨name, text, hdecides, hstarts⟩
  · rintro ⟨name, text, hdecides, rfl⟩
    exact get?_starts_of_decides hmade hdecides

theorem get?_iqamahs_ofStarts (starts : PrayerTable TimeOfDay) (offsets : IqamahOffsets)
    (p : Prayer) : (ofStarts starts offsets).iqamahs.get? p =
      if p = .sunrise then none
      else (starts.get? p).map (Iqamah.time · (offsets.minutes p) p) := by
  show (PrayerTable.put _ .sunrise none).get? p = _
  split
  · next hsunrise => rw [hsunrise, PrayerTable.get?_put_self]
  · next hother => rw [PrayerTable.get?_put_of_ne _ hother, PrayerTable.get?_map]

theorem get?_iqamahs (hmade : ofRaw raw offsets = .ok times) (p : Prayer) :
    times.iqamahs.get? p = if p = .sunrise then none
      else (times.starts.get? p).map (Iqamah.time · (offsets.minutes p) p) := by
  obtain ⟨starts, -, rfl⟩ := ofRaw_eq_ok_iff.1 hmade
  exact get?_iqamahs_ofStarts starts offsets p

theorem get?_iqamahs_iff (hmade : ofRaw raw offsets = .ok times) {t : TimeOfDay} :
    times.iqamahs.get? p = some t ↔ p ≠ .sunrise ∧ ∃ start, times.starts.get? p = some start ∧
      t = Iqamah.time start (offsets.minutes p) p := by
  rw [get?_iqamahs hmade]
  split <;> simp_all [eq_comm]

end Whole

/-! ### Other texts under the same names -/

section Texts

variable {raw other : RawTimes} {offsets : IqamahOffsets} {times times' : PrayerTimes} {p : Prayer}

/-- Whether entering fails, and with what, is a matter of the names. -/
theorem enter_eq_error_of_names {table table' : PrayerTable TimeOfDay} {e : Error}
    {es fs : List (String × String)} (hnames : es.map Prod.fst = fs.map Prod.fst)
    (hrefused : enter table es = .error e) : enter table' fs = .error e := by
  obtain ⟨before, name, text, after, rfl, hfine, hmeaningless, rfl⟩ := enter_eq_error_iff.1 hrefused
  rw [List.map_append, List.map_cons] at hnames
  obtain ⟨before', rest, rfl, hnames', hnames''⟩ := List.map_eq_append_iff.1 hnames.symm
  obtain ⟨entry, after', rfl, hsame, -⟩ := List.map_eq_cons_iff.1 hnames''
  refine enter_eq_error_iff.2 ⟨before', entry.1, entry.2, after', rfl, fun f hf => ?_,
    hsame ▸ hmeaningless, by rw [hsame]⟩
  obtain ⟨g, hg, hsameName⟩ := List.mem_map.1 (hnames' ▸ List.mem_map_of_mem (f := Prod.fst) hf)
  exact hsameName ▸ hfine g hg

theorem ofRaw_eq_error_congr (hnames : raw.toList.map Prod.fst = other.toList.map Prod.fst)
    (e : Error) : ofRaw raw offsets = .error e ↔ ofRaw other offsets = .error e := by
  rw [ofRaw_eq_error_iff, ofRaw_eq_error_iff]
  exact ⟨enter_eq_error_of_names hnames, enter_eq_error_of_names hnames.symm⟩

def AgreeOn (raw other : RawTimes) (p : Prayer) : Prop :=
  ∀ entry : String × String, Means entry.1 p → (entry ∈ raw.toList ↔ entry ∈ other.toList)

theorem AgreeOn.symm (hagree : AgreeOn raw other p) : AgreeOn other raw p :=
  fun entry hmeans => (hagree entry hmeans).symm

theorem Decides.of_agreeOn (hagree : AgreeOn raw other p) {name text : String}
    (hdecides : Decides raw p name text) : Decides other p name text where
  listed := (hagree _ hdecides.means).1 hdecides.listed
  means := hdecides.means
  last entry hlisted hmeans := hdecides.last entry ((hagree entry hmeans).2 hlisted) hmeans

theorem get?_starts_congr (hagree : AgreeOn raw other p) (hmade : ofRaw raw offsets = .ok times)
    (hmade' : ofRaw other offsets = .ok times') :
    times.starts.get? p = times'.starts.get? p := by
  refine Option.ext fun t => ?_
  rw [get?_starts_iff hmade, get?_starts_iff hmade']
  constructor
  · rintro ⟨name, text, hdecides, hcounts⟩
    exact ⟨name, text, hdecides.of_agreeOn hagree, hcounts⟩
  · rintro ⟨name, text, hdecides, hcounts⟩
    exact ⟨name, text, hdecides.of_agreeOn hagree.symm, hcounts⟩

theorem get?_iqamahs_congr (hagree : AgreeOn raw other p) (hmade : ofRaw raw offsets = .ok times)
    (hmade' : ofRaw other offsets = .ok times') :
    times.iqamahs.get? p = times'.iqamahs.get? p := by
  rw [get?_iqamahs hmade, get?_iqamahs hmade', get?_starts_congr hagree hmade hmade']

end Texts

/-- A day fails for a name that means no slot and for nothing else, and reports the first one. It
has a start for each slot that some name means, as the last of these names has it, and an iqamah
after each start but that of sunrise. Other texts under its names neither make it fail nor change a
slot that has the same texts. -/
theorem ofRaw_exact (raw : RawTimes) (offsets : IqamahOffsets) :
    ((∃ e, ofRaw raw offsets = .error e) ↔ ∃ entry ∈ raw.toList, ∀ p, ¬ Means entry.1 p) ∧
    (∀ e, ofRaw raw offsets = .error e → ∃ name text, Spoils raw name ∧ Folds name text ∧
      e.kind = .config ∧ e.message = "Configuration error: " ++ ("Unknown prayer name: " ++ text)) ∧
    (∀ times, ofRaw raw offsets = .ok times → ∀ p,
      ((times.starts.get? p).isSome ↔ ∃ entry ∈ raw.toList, Means entry.1 p) ∧
      (∀ t, times.starts.get? p = some t ↔
        ∃ name text, Decides raw p name text ∧ Counts text t) ∧
      ∀ t, times.iqamahs.get? p = some t ↔ p ≠ .sunrise ∧
        ∃ start, times.starts.get? p = some start ∧ t = Iqamah.time start (offsets.minutes p) p) ∧
    ∀ other : RawTimes, other.toList.map Prod.fst = raw.toList.map Prod.fst →
      (∀ e, ofRaw other offsets = .error e ↔ ofRaw raw offsets = .error e) ∧
      ∀ times times', ofRaw raw offsets = .ok times → ofRaw other offsets = .ok times' →
        ∀ p, AgreeOn raw other p → times'.starts.get? p = times.starts.get? p ∧
          times'.iqamahs.get? p = times.iqamahs.get? p := by
  refine ⟨exists_ofRaw_eq_error_iff, fun e hrefused => ?_, fun times hmade p =>
    ⟨isSome_starts_iff hmade, fun t => get?_starts_iff hmade, fun t => get?_iqamahs_iff hmade⟩,
    fun other hnames => ⟨ofRaw_eq_error_congr hnames, fun times times' hmade hmade' p hagree =>
      ⟨get?_starts_congr hagree.symm hmade' hmade, get?_iqamahs_congr hagree.symm hmade' hmade⟩⟩⟩
  obtain ⟨name, text, hspoils, hfolds, rfl⟩ := exists_spoils_of_ofRaw hrefused
  exact ⟨name, text, hspoils, hfolds, rfl, rfl⟩

/-- Three names for zuhr, of which the last in the order of bytes has a text that is no time. -/
theorem ofRaw_exact_aliases :
    let raw : RawTimes := .ofList [("zuhr", "noon"), (" Duhr ", "12:05"), ("dhuhr", "12:10"),
      ("MAGHRIB", "17:49"), ("shuruq", "5:58")]
    ∃ times, ofRaw raw .empty = .ok times ∧ Decides raw .zuhr "zuhr" "noon" ∧
      times.starts.get? .zuhr = some .midnight ∧ times.iqamahs.get? .sunrise = none := by
  intro raw
  have hlisted : raw.toList = [(" Duhr ", "12:05"), ("MAGHRIB", "17:49"), ("dhuhr", "12:10"),
      ("shuruq", "5:58")] ++ [("zuhr", "noon")] := by decide +kernel
  have hdecides : Decides raw .zuhr "zuhr" "noon" :=
    decides_iff_split.2 ⟨Prayer.means_iff.2 (by decide +kernel), _, [], hlisted, nofun⟩
  let starts : PrayerTable TimeOfDay :=
    { sunrise := some ⟨358, by decide⟩, zuhr := some .midnight, maghrib := some ⟨1069, by decide⟩ }
  obtain ⟨times, hmade⟩ : ∃ times, ofRaw raw .empty = .ok times :=
    ⟨ofStarts starts .empty, by decide +kernel⟩
  have hwhole := (ofRaw_exact raw .empty).2.2.1 times hmade
  refine ⟨times, hmade, hdecides, ?_, ?_⟩
  · exact ((hwhole .zuhr).2.1 .midnight).2 ⟨_, _, hdecides, counts_iff.2 (by decide +kernel)⟩
  · exact Option.eq_none_iff_forall_ne_some.2 fun t h => (((hwhole .sunrise).2.2 t).1 h).1 rfl

end PrayerTimes

end Muezzin
