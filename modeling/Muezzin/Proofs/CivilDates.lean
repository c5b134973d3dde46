import Mathlib.Order.Basic
import Mathlib.Tactic.IntervalCases
import Mathlib.Tactic.SplitIfs
import Muezzin.Calendar.Date

/-!
# Year, month and day

Every number of days is one year, month and day, and every year, month and day that exist are one
number of days. Earlier ones have the smaller number: the first of a month is as many days after the
first of the month before as that month has, and the first of January is one day after the last of
December. So the day after is one further on, in the same month, in the next or in the next year,
with no exception for leap years or for the year 0.
-/

namespace Muezzin

namespace Date

/-- The parts of the mixed radix of `civil`, and what they come to. -/
theorem civil_eq (d : Date) : ∃ era century quad yearOfQuad dayOfYear : Int,
    (0 ≤ century ∧ century ≤ 3) ∧ (0 ≤ quad ∧ quad ≤ 24) ∧ (0 ≤ yearOfQuad ∧ yearOfQuad ≤ 3) ∧
    (0 ≤ dayOfYear ∧ dayOfYear ≤ 365) ∧
    (dayOfYear = 365 → yearOfQuad = 3 ∧ (quad < 24 ∨ century = 3)) ∧
    d.dayNumber = 146097 * era + 36524 * century + 1461 * quad + 365 * yearOfQuad + dayOfYear -
      Civil.epochShift ∧
    d.civil = (
      let marchYear := 400 * era + 100 * century + 4 * quad + yearOfQuad
      let marchMonth := (5 * dayOfYear + 2) / 153
      let day := dayOfYear - (153 * marchMonth + 2) / 5 + 1
      if marchMonth < 10 then ⟨marchYear, (marchMonth + 3).toNat, day.toNat⟩
      else ⟨marchYear + 1, (marchMonth - 9).toNat, day.toNat⟩) := by
  refine ⟨_, _, _, _, _, ?_, ?_, ?_, ?_, ?_, ?_, rfl⟩
  all_goals simp only [Civil.epochShift]
  all_goals omega

theorem dayNumber_civil (d : Date) : d.civil.dayNumber = d.dayNumber := by
  obtain ⟨era, century, quad, yearOfQuad, dayOfYear, hc, hq, hy, hd, -, hnumber, hcivil⟩ :=
    civil_eq d
  rw [hcivil, hnumber]
  dsimp only
  split
  · next hearly =>
    have hnotJanuary : ¬ ((5 * dayOfYear + 2) / 153 + 3).toNat ≤ 2 := by omega
    simp only [Civil.dayNumber, hnotJanuary, if_false]
    omega
  · next hlate =>
    have hjanuary : ((5 * dayOfYear + 2) / 153 - 9).toNat ≤ 2 := by omega
    simp only [Civil.dayNumber, hjanuary, if_true]
    omega

theorem exists_civil (d : Date) : d.civil.Exists := by
  obtain ⟨era, century, quad, yearOfQuad, dayOfYear, hc, hq, hy, hd, hleap, -, hcivil⟩ := civil_eq d
  rw [hcivil]
  dsimp only
  split
  · next hearly =>
    simp only [Civil.Exists, Civil.daysIn]
    refine ⟨by omega, by omega, by omega, ?_⟩
    split
    · omega
    · split <;> omega
  · next hlate =>
    have hleapYear (hlast : dayOfYear = 365) :
        Civil.isLeap (400 * era + 100 * century + 4 * quad + yearOfQuad + 1) = true := by
      obtain ⟨rfl, hwithin⟩ := hleap hlast
      simp only [Civil.isLeap, Bool.and_eq_true, Bool.or_eq_true, beq_iff_eq, bne_iff_ne]
      omega
    simp only [Civil.Exists, Civil.daysIn]
    refine ⟨by omega, by omega, by omega, ?_⟩
    split
    · by_cases hlast : dayOfYear = 365
      · rw [if_pos (hleapYear hlast)]
        omega
      · split <;> omega
    · split <;> omega

end Date

namespace Civil

theorem daysIn_le (year : Int) (month : Nat) : daysIn year month ≤ 31 := by
  unfold daysIn
  split
  · split <;> omega
  · split <;> omega

def newYear (year : Int) : Int :=
  dayNumber ⟨year, 1, 1⟩

theorem newYear_le_newYear {year later : Int} (h : year ≤ later) :
    newYear year ≤ newYear later := by
  obtain ⟨n, rfl⟩ := Int.exists_add_of_le h
  clear h
  induction n with
  | zero => simp
  | succ n ih =>
    have hnext : newYear (year + n) ≤ newYear (year + (n + 1 : Nat)) := by
      simp only [newYear, dayNumber, Nat.reduceLeDiff, if_true]
      omega
    exact Int.le_trans ih hnext

theorem Exists.newYear_le {c : Civil} (h : c.Exists) :
    newYear c.year ≤ c.dayNumber ∧ c.dayNumber < newYear (c.year + 1) := by
  obtain ⟨year, month, day⟩ := c
  obtain ⟨hjanuary, hdecember, hfirstDay, hlastDay⟩ := h
  dsimp only at hjanuary hdecember hfirstDay hlastDay
  have hday_le := Nat.le_trans hlastDay (daysIn_le year month)
  simp only [newYear, dayNumber, Nat.reduceLeDiff, if_true]
  split <;> omega

end Civil

namespace Date

theorem ofCivil?_civil {d : Date} (hfirst_le : first ≤ d) (hle_last : d ≤ last) :
    ofCivil? d.civil = some d := by
  have hnumber := dayNumber_civil d
  have hlower : Civil.newYear (-262143) ≤ d.dayNumber := hfirst_le
  have hupper : d.dayNumber < Civil.newYear 262143 := Int.lt_of_le_of_lt hle_last (by decide)
  have hwithin := (exists_civil d).newYear_le
  rw [hnumber] at hwithin
  have hyears : -262143 ≤ d.civil.year ∧ d.civil.year ≤ 262142 := by
    refine ⟨Int.not_lt.1 fun hearly => ?_, Int.not_lt.1 fun hlate => ?_⟩
    · have := Civil.newYear_le_newYear (show d.civil.year + 1 ≤ -262143 by omega)
      omega
    · have := Civil.newYear_le_newYear (show 262143 ≤ d.civil.year by omega)
      omega
  rw [ofCivil?, if_pos ⟨exists_civil d, hyears⟩, hnumber]

theorem mem_calendar_of_ofCivil? {c : Civil} {d : Date} (h : ofCivil? c = some d) :
    first ≤ d ∧ d ≤ last := by
  rw [ofCivil?] at h
  split at h
  · next hvalid =>
    cases h
    have hwithin := hvalid.1.newYear_le
    have hlower := Civil.newYear_le_newYear hvalid.2.1
    have hupper := Civil.newYear_le_newYear (show c.year + 1 ≤ 262143 by omega)
    have hends : Civil.newYear 262143 = last.dayNumber + 1 := by decide
    constructor
    · exact Int.le_trans hlower hwithin.1
    · show c.dayNumber ≤ last.dayNumber
      omega
  · cases h

end Date

namespace Civil

/-- The order of the calendar: by the year, then by the month, then by the day. -/
def Before (c e : Civil) : Prop :=
  c.year < e.year ∨ c.year = e.year ∧ (c.month < e.month ∨ c.month = e.month ∧ c.day < e.day)

theorem before_or_eq_or_before (c e : Civil) : c.Before e ∨ c = e ∨ e.Before c := by
  cases c
  cases e
  simp only [Before, mk.injEq]
  omega

variable {c e : Civil} {month later : Nat}

theorem daysIn_pos (year : Int) (month : Nat) : 0 < daysIn year month := by
  unfold daysIn
  split_ifs <;> decide

/-- The leap days up to a year are those up to the year before, and its own if it has one. -/
theorem leapDays_eq (year : Int) :
    year / 4 - year / 100 + year / 400 =
      (year - 1) / 4 - (year - 1) / 100 + (year - 1) / 400 + if isLeap year then 1 else 0 := by
  have hquads : (year - 1) / 4 = year / 4 - if year % 4 = 0 then 1 else 0 := by omega
  have hcenturies : (year - 1) / 100 = year / 100 - if year % 100 = 0 then 1 else 0 := by omega
  have heras : (year - 1) / 400 = year / 400 - if year % 400 = 0 then 1 else 0 := by omega
  rw [hquads, hcenturies, heras]
  simp only [isLeap, Bool.and_eq_true, Bool.or_eq_true, beq_iff_eq, bne_iff_ne]
  split_ifs <;> omega

theorem dayNumber_eq (c : Civil) :
    c.dayNumber = dayNumber ⟨c.year, c.month, 1⟩ + c.day - 1 := by
  simp only [dayNumber]
  omega

theorem dayNumber_nextMonth (year : Int) (hjanuary : 1 ≤ month) (hanother : month < 12) :
    dayNumber ⟨year, month + 1, 1⟩ = dayNumber ⟨year, month, 1⟩ + daysIn year month := by
  by_cases hfebruary : month = 2
  · subst hfebruary
    -- The count begins its years in March, so the leap day of this one is passed only here.
    have hleap := leapDays_eq year
    simp only [daysIn, dayNumber, Nat.reduceAdd, Nat.reduceLeDiff, if_true, if_false]
    split_ifs at hleap ⊢ <;> omega
  · simp only [daysIn, hfebruary, if_false]
    interval_cases month <;> simp [dayNumber] <;> omega

theorem dayNumber_nextYear (year : Int) :
    dayNumber ⟨year + 1, 1, 1⟩ = dayNumber ⟨year, 12, 1⟩ + 31 := by
  simp only [dayNumber, Nat.reduceLeDiff, if_true, if_false]
  omega

theorem dayNumber_laterMonth (year : Int) (hjanuary : 1 ≤ month) (hearlier : month < later)
    (hdecember : later ≤ 12) :
    dayNumber ⟨year, month, 1⟩ + daysIn year month ≤ dayNumber ⟨year, later, 1⟩ := by
  induction later, hearlier using Nat.le_induction with
  | base => exact Int.le_of_eq (dayNumber_nextMonth year hjanuary hdecember).symm
  | succ later hearlier ih =>
    have hended := ih (Nat.le_of_succ_le hdecember)
    have hnext := dayNumber_nextMonth year (show 1 ≤ later by omega) hdecember
    omega

theorem Exists.next (h : c.Exists) : c.next.Exists := by
  obtain ⟨hjanuary, hdecember, -, -⟩ := h
  unfold Civil.next
  split_ifs with hwithin hanother
  · exact ⟨hjanuary, hdecember, Nat.le_add_left 1 _, hwithin⟩
  · exact ⟨Nat.le_add_left 1 _, hanother, Nat.le_refl 1, daysIn_pos _ _⟩
  · exact ⟨Nat.le_refl 1, Nat.le_add_left 1 11, Nat.le_refl 1, daysIn_pos _ _⟩

/-- Whether in the same month, in the next or in the next year, the day after is one further on. -/
theorem Exists.dayNumber_next (h : c.Exists) : c.next.dayNumber = c.dayNumber + 1 := by
  obtain ⟨hjanuary, hdecember, -, hlastDay⟩ := h
  rw [dayNumber_eq c]
  unfold Civil.next
  split_ifs with hwithin hanother
  · rw [dayNumber_eq]
    dsimp only
    omega
  · rw [dayNumber_nextMonth c.year hjanuary hanother]
    omega
  · have hlast : c.month = 12 := by omega
    have hdays : daysIn c.year 12 = 31 := rfl
    rw [hlast] at hwithin hlastDay ⊢
    rw [dayNumber_nextYear]
    omega

theorem dayNumber_lt_of_before (hc : c.Exists) (he : e.Exists) (hbefore : c.Before e) :
    c.dayNumber < e.dayNumber := by
  have ⟨hjanuary, _, _, hlastDay⟩ := hc
  have ⟨_, hdecember, hfirstDay, _⟩ := he
  rcases hbefore with hyears | ⟨hyears, hmonths | ⟨hmonths, hdays⟩⟩
  · calc c.dayNumber < newYear (c.year + 1) := hc.newYear_le.2
      _ ≤ newYear e.year := newYear_le_newYear hyears
      _ ≤ e.dayNumber := he.newYear_le.1
  · have hended := dayNumber_laterMonth c.year hjanuary hmonths hdecember
    rw [dayNumber_eq c, dayNumber_eq e, ← hyears]
    omega
  · rw [dayNumber_eq c, dayNumber_eq e, ← hyears, ← hmonths]
    omega

theorem Exists.eq_of_dayNumber_eq (hc : c.Exists) (he : e.Exists)
    (hsame : c.dayNumber = e.dayNumber) : c = e := by
  rcases before_or_eq_or_before c e with hbefore | hequal | hafter
  · exact absurd hsame (Int.ne_of_lt (dayNumber_lt_of_before hc he hbefore))
  · exact hequal
  · exact absurd hsame.symm (Int.ne_of_lt (dayNumber_lt_of_before he hc hafter))

end Civil

namespace Date

variable {d e : Date} {c : Civil}

theorem civil_eq_of_dayNumber_eq (h : c.Exists) (hsame : d.dayNumber = c.dayNumber) :
    d.civil = c :=
  (exists_civil d).eq_of_dayNumber_eq h ((dayNumber_civil d).trans hsame)

theorem civil_before_iff : d.civil.Before e.civil ↔ d < e := by
  have honward {d e : Date} (hbefore : d.civil.Before e.civil) : d < e := by
    have hless := Civil.dayNumber_lt_of_before (exists_civil d) (exists_civil e) hbefore
    rwa [dayNumber_civil, dayNumber_civil] at hless
  refine ⟨honward, fun hless => ?_⟩
  rcases Civil.before_or_eq_or_before d.civil e.civil with hbefore | hsame | hafter
  · exact hbefore
  · have hnumbers := congrArg Civil.dayNumber hsame
    rw [dayNumber_civil, dayNumber_civil] at hnumbers
    exact absurd hnumbers (Int.ne_of_lt hless)
  · exact absurd (honward hafter) (Int.lt_asymm hless)

theorem civil_of_next? (hsuccessor : d.next? = some e) : e.civil = d.civil.next := by
  have hnumber := (next?_eq_some_iff.1 hsuccessor).2
  refine civil_eq_of_dayNumber_eq (exists_civil d).next ?_
  rw [(exists_civil d).dayNumber_next, dayNumber_civil, hnumber]

theorem ofCivil?_eq_some_iff : ofCivil? c = some d ↔ d.civil = c ∧ first ≤ d ∧ d ≤ last := by
  constructor
  · intro h
    refine ⟨?_, mem_calendar_of_ofCivil? h⟩
    rw [ofCivil?] at h
    split at h
    · next hvalid =>
      cases h
      exact civil_eq_of_dayNumber_eq hvalid.1 rfl
    · cases h
  · rintro ⟨rfl, hfirst_le, hle_last⟩
    exact ofCivil?_civil hfirst_le hle_last

end Date

end Muezzin
