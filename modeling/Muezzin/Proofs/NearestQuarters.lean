import Mathlib.Tactic.SplitIfs
import Muezzin.Iqamah

/-!
# The iqamah on the circle of the day

A day is a circle of 1440 minutes, and the quarters are ninety-six points on it, fifteen minutes
apart. No minute is in the middle between two of them, so every minute has exactly one quarter that
is at most seven minutes away. Azan and offset together give a minute, however many days the offset
goes round. For maghrib the iqamah is this minute and for the others its quarter, and neither the
next hour nor midnight is an exception.
-/

namespace Muezzin

namespace TimeOfDay

theorem minutes_addMinutes (t : TimeOfDay) (n : Int) :
    ((t.addMinutes n).minutes : Int) = (t.minutes + n) % 1440 :=
  minutes_wrap _

theorem addMinutes_zero (t : TimeOfDay) : t.addMinutes 0 = t := by
  have hbound := t.minutes_lt
  have hshifted := t.minutes_addMinutes 0
  apply eq_of_minutes_eq
  omega

/-- How many minutes lie between two points of the circle, going the shorter way. -/
def apart (m n : Int) : Int :=
  min ((m - n) % 1440) ((n - m) % 1440)

end TimeOfDay

namespace Iqamah

/-- A quarter of an hour that is at most seven minutes away from a point of the circle. -/
structure Nearest (raw : Int) (t : TimeOfDay) : Prop where
  quarter : 15 ∣ t.minutes
  near : TimeOfDay.apart t.minutes raw ≤ 7

/-- The table has one row for each quarter, from seven minutes before it to seven minutes after. -/
theorem quarter_eq {m : Nat} (hbound : m < 60) : quarter m = 15 * ((m + 7) / 15) := by
  unfold quarter
  split_ifs <;> omega

theorem minutes_roundToQuarter (t : TimeOfDay) :
    ((roundToQuarter t).minutes : Int) = 15 * ((t.minutes + 7) / 15) % 1440 := by
  have hminute : t.minute < 60 := Nat.mod_lt _ (by decide)
  have hwhole : t.minutes = t.hour * 60 + t.minute := (Nat.div_add_mod' t.minutes 60).symm
  rw [roundToQuarter, TimeOfDay.minutes_wrap, quarter_eq hminute, hwhole]
  omega

theorem nearest_roundToQuarter (t : TimeOfDay) : Nearest t.minutes (roundToQuarter t) := by
  have hrounded := minutes_roundToQuarter t
  have hbound := t.minutes_lt
  constructor
  · omega
  · unfold TimeOfDay.apart
    omega

/-- Two quarters that are near to the same point are less than fifteen minutes apart. -/
theorem Nearest.unique {raw : Int} {t u : TimeOfDay} (hfirst : Nearest raw t)
    (hsecond : Nearest raw u) : t = u := by
  obtain ⟨⟨i, hi⟩, ht⟩ := hfirst
  obtain ⟨⟨j, hj⟩, hu⟩ := hsecond
  have := t.minutes_lt
  have := u.minutes_lt
  unfold TimeOfDay.apart at ht hu
  apply TimeOfDay.eq_of_minutes_eq
  omega

theorem roundToQuarter_of_quarter {t : TimeOfDay} (hquarter : 15 ∣ t.minutes) :
    roundToQuarter t = t := by
  have hitself : Nearest t.minutes t := by
    refine ⟨hquarter, ?_⟩
    simp [TimeOfDay.apart]
  exact (nearest_roundToQuarter t).unique hitself

variable {p : Prayer}

theorem time_of_eq (azan : TimeOfDay) (offset : Int) (hexact : p = .maghrib) :
    time azan offset p = azan.addMinutes offset :=
  if_pos hexact

theorem time_of_ne (azan : TimeOfDay) (offset : Int) (hrounded : p ≠ .maghrib) :
    time azan offset p = roundToQuarter (azan.addMinutes offset) :=
  if_neg hrounded

/-- Only the point at which azan and offset meet has an influence. -/
theorem time_congr {azan other : TimeOfDay} {offset shift : Int}
    (hmeet : (other.minutes + shift) % 1440 = (azan.minutes + offset) % 1440) :
    time other shift p = time azan offset p := by
  have hsame : other.addMinutes shift = azan.addMinutes offset := by
    apply TimeOfDay.eq_of_minutes_eq
    have := other.minutes_addMinutes shift
    have := azan.minutes_addMinutes offset
    omega
  rw [time, time, hsame]

theorem time_time (azan : TimeOfDay) (offset : Int) :
    time (time azan offset p) 0 p = time azan offset p := by
  by_cases hexact : p = .maghrib
  · rw [time_of_eq _ 0 hexact, TimeOfDay.addMinutes_zero]
  · rw [time_of_ne _ 0 hexact, TimeOfDay.addMinutes_zero, time_of_ne azan offset hexact]
    exact roundToQuarter_of_quarter (nearest_roundToQuarter _).quarter

/-- For maghrib the iqamah is the point at which azan and offset meet. For every other prayer it is
the one quarter near to that point, which is rounded by one formula, so the end of an hour goes to
the next and the end of the day to midnight. Nothing else has an influence, an iqamah is its own
iqamah when the offset is zero, and a text counts as the time that it is, or else as midnight. -/
theorem time_on_circle (azan : TimeOfDay) (offset : Int) (p : Prayer) :
    let raw := (azan.minutes + offset) % 1440
    let iqamah := time azan offset p
    (p = .maghrib → iqamah.minutes = raw) ∧
    (p ≠ .maghrib →
      (∀ t, Nearest raw t ↔ t = iqamah) ∧
      iqamah.minutes = 15 * ((raw + 7) / 15) % 1440 ∧
      (53 ≤ raw % 60 → iqamah.minutes = 60 * (raw / 60 + 1) % 1440) ∧
      (1433 ≤ raw → iqamah = .midnight)) ∧
    (∀ (other : TimeOfDay) shift,
      (other.minutes + shift) % 1440 = raw → time other shift p = iqamah) ∧
    time iqamah 0 p = iqamah ∧
    ∀ text,
      (∀ t, TimeOfDay.parse text = .ok t → timeOfText text offset p = time t offset p) ∧
      ∀ e, TimeOfDay.parse text = .error e →
        timeOfText text offset p = time .midnight offset p := by
  intro raw iqamah
  have hmeet : ((azan.addMinutes offset).minutes : Int) = raw := azan.minutes_addMinutes offset
  refine ⟨fun hexact => ?_, fun hrounded => ?_, fun other shift => time_congr,
    time_time azan offset, fun text => ⟨fun t ht => ?_, fun e he => ?_⟩⟩
  · show ((time azan offset p).minutes : Int) = raw
    rw [time_of_eq azan offset hexact, hmeet]
  · have hrounding : iqamah = roundToQuarter (azan.addMinutes offset) :=
      time_of_ne azan offset hrounded
    have hnear : Nearest raw iqamah := by
      rw [hrounding, ← hmeet]
      exact nearest_roundToQuarter _
    have hformula : (iqamah.minutes : Int) = 15 * ((raw + 7) / 15) % 1440 := by
      rw [hrounding, ← hmeet]
      exact minutes_roundToQuarter _
    have hlow : 0 ≤ raw := Int.emod_nonneg _ (by decide)
    have hhigh : raw < 1440 := Int.emod_lt_of_pos _ (by decide)
    refine ⟨fun t => ⟨fun ht => ht.unique hnear, fun hsame => hsame ▸ hnear⟩, hformula,
      fun hlate => ?_, fun hlast => ?_⟩
    · omega
    · have hnone : TimeOfDay.midnight.minutes = 0 := rfl
      apply TimeOfDay.eq_of_minutes_eq
      omega
  · simp only [timeOfText, azanOrMidnight, ht]
  · simp only [timeOfText, azanOrMidnight, he]

/-- An offset that goes back by three days and a bit ends in the last minutes before midnight. -/
theorem time_on_circle_midnight :
    let last : TimeOfDay := ⟨1439, by decide⟩
    time last (-4325) .isha = .midnight ∧ (time last (-4325) .maghrib).minutes = 1434 ∧
      time .midnight (-6) .isha = .midnight ∧
      timeOfText " 23:59 " (-4325) .isha = .midnight ∧
      timeOfText "24:00" (-4325) .isha = time .midnight (-4325) .isha := by
  intro last
  obtain ⟨-, hrounded, hcongruent, -, htexts⟩ := time_on_circle last (-4325) .isha
  obtain ⟨hexact, -⟩ := time_on_circle last (-4325) .maghrib
  have hmidnight : time last (-4325) .isha = .midnight :=
    (hrounded (by decide)).2.2.2 (by decide)
  have hread : TimeOfDay.parse " 23:59 " = .ok last := by rfl
  have hrefused : TimeOfDay.parse "24:00" = .error (.badTime "24:00" .outOfRange) := by rfl
  refine ⟨hmidnight, ?_, ?_, ?_, (htexts _).2 _ hrefused⟩
  · exact Int.ofNat.inj (hexact rfl)
  · exact (hcongruent .midnight (-6) (by decide)).trans hmidnight
  · exact ((htexts _).1 last hread).trans hmidnight

end Iqamah

end Muezzin
