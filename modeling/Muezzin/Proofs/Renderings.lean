import Mathlib.Order.Basic
import Muezzin.Proofs.CivilDates
import Muezzin.TimeOfDay

/-!
# Dates and times are read back as they were written

Numbers are written with leading zeros, times of day as `HH:MM`, dates as `YYYY-MM-DD` with a sign
where the year has more or less than four digits. The readers take more than that: fewer digits,
blanks, seconds. What is written they read as it was meant, for every time and for every date of the
calendar, and no date that they read lies outside the calendar.
-/

namespace Muezzin

namespace Text

theorem toList_padLeft (width n : Nat) :
    (padLeft width n).toList =
      List.replicate (width - (Nat.toDigits 10 n).length) '0' ++ Nat.toDigits 10 n := by
  simp [padLeft, Nat.repr_eq_ofList_toDigits]

theorem isDigit_of_mem_padLeft {width n : Nat} {c : Char} (h : c ∈ (padLeft width n).toList) :
    c.isDigit = true := by
  rw [toList_padLeft] at h
  rcases List.mem_append.1 h with h | h
  · rw [List.eq_of_mem_replicate h]
    rfl
  · exact Nat.isDigit_of_mem_toDigits (by decide) (by decide) h

theorem ofDigitChars_padLeft (width n : Nat) :
    Nat.ofDigitChars 10 (padLeft width n).toList 0 = n := by
  rw [toList_padLeft, Nat.ofDigitChars_append, Nat.ofDigitChars_replicate_zero, Nat.mul_zero,
    Nat.ofDigitChars_ten_toDigits]

theorem length_padLeft {width n : Nat} (hpositive : 0 < width) (hfits : n < Nat.pow 10 width) :
    (padLeft width n).toList.length = width := by
  have hshort := (Nat.length_toDigits_le_iff (b := 10) (by decide) hpositive).2 hfits
  rw [toList_padLeft, List.length_append, List.length_replicate]
  omega

theorem not_isBlank_of_isDigit {c : Char} (h : c.isDigit = true) : isBlank c = false := by
  have hrange : 48 ≤ c.toNat ∧ c.toNat ≤ 57 := by
    simpa [Char.isDigit, UInt32.le_iff_toNat_le] using h
  simp only [isBlank, Bool.or_eq_false_iff, Bool.and_eq_false_iff, decide_eq_false_iff_not,
    beq_eq_false_iff_ne]
  omega

theorem padLeft_ne_nil (width n : Nat) : (padLeft width n).toList ≠ [] := by
  simp [toList_padLeft, Nat.toDigits_ne_nil]

theorem trimStart_of_not_blank {c : Char} (h : isBlank c = false) (cs : List Char) :
    trimStart (c :: cs) = c :: cs :=
  List.dropWhile_cons_of_neg (by simp [h])

theorem trimStart_padLeft (width n : Nat) (rest : List Char) :
    trimStart ((padLeft width n).toList ++ rest) = (padLeft width n).toList ++ rest := by
  obtain ⟨c, cs, hdigits⟩ := List.exists_cons_of_ne_nil (padLeft_ne_nil width n)
  have hdigit : c.isDigit = true := isDigit_of_mem_padLeft (hdigits ▸ List.mem_cons_self)
  rw [hdigits, List.cons_append, trimStart_of_not_blank (not_isBlank_of_isDigit hdigit)]

theorem trimEnd_padLeft (cs : List Char) (width n : Nat) :
    trimEnd (cs ++ (padLeft width n).toList) = cs ++ (padLeft width n).toList := by
  obtain ⟨c, rest, hdigits⟩ :=
    List.exists_cons_of_ne_nil (List.reverse_ne_nil_iff.2 (padLeft_ne_nil width n))
  have hlast : c ∈ (padLeft width n).toList := by
    rw [← List.mem_reverse, hdigits]
    exact List.mem_cons_self
  have hdigit := isDigit_of_mem_padLeft hlast
  have hstays : (cs ++ (padLeft width n).toList).reverse.dropWhile isBlank =
      (cs ++ (padLeft width n).toList).reverse := by
    rw [List.reverse_append, hdigits, List.cons_append,
      List.dropWhile_cons_of_neg (by simp [not_isBlank_of_isDigit hdigit])]
  rw [trimEnd, hstays, List.reverse_reverse]

theorem fields_of_notMem {sep : Char} {piece : List Char} (h : sep ∉ piece) :
    fields sep piece = [piece] := by
  induction piece with
  | nil => rfl
  | cons c piece ih =>
    obtain ⟨hother, hrest⟩ := List.ne_and_not_mem_of_not_mem_cons h
    rw [fields, if_neg hother.symm, ih hrest]

theorem fields_append {sep : Char} {piece : List Char} (h : sep ∉ piece) (rest : List Char) :
    fields sep (piece ++ sep :: rest) = piece :: fields sep rest := by
  induction piece with
  | nil => rw [List.nil_append, fields, if_pos rfl]
  | cons c piece ih =>
    obtain ⟨hother, hlater⟩ := List.ne_and_not_mem_of_not_mem_cons h
    rw [List.cons_append, fields, if_neg hother.symm, ih hlater]

theorem colon_notMem_padLeft (width n : Nat) : ':' ∉ (padLeft width n).toList := by
  intro h
  cases isDigit_of_mem_padLeft h

end Text

namespace Date

/-- Digits that end where the limit is or where something else follows are read as a number. -/
theorem digitsUpTo_append {width : Nat} {digits rest : List Char} (hnonempty : digits ≠ [])
    (hdigit : ∀ c ∈ digits, c.isDigit = true) (hshort : digits.length ≤ width)
    (hends : digits.length = width ∨ ∀ c ∈ rest.head?, c.isDigit = false) :
    digitsUpTo width (digits ++ rest) = some (Nat.ofDigitChars 10 digits 0, rest) := by
  have htaken : ((digits ++ rest).take width).takeWhile Char.isDigit = digits := by
    have hstop : (rest.take (width - digits.length)).takeWhile Char.isDigit = [] := by
      rcases hends with hfull | hother
      · rw [hfull, Nat.sub_self, List.take_zero, List.takeWhile_nil]
      · cases rest with
        | nil => rw [List.take_nil, List.takeWhile_nil]
        | cons c rest =>
          have hnotDigit : c.isDigit = false := hother c rfl
          cases width - digits.length with
          | zero => rfl
          | succ n => rw [List.take_succ_cons, List.takeWhile_cons_of_neg (by simp [hnotDigit])]
    rw [List.take_append, List.take_of_length_le hshort, List.takeWhile_append_of_pos hdigit, hstop,
      List.append_nil]
  rw [digitsUpTo, htaken]
  simp [hnonempty, Nat.ofDigitChars_eq_foldl, Nat.mul_comm]

theorem digitsUpTo_padLeft {width limit n : Nat} {rest : List Char}
    (hshort : (Text.padLeft width n).toList.length ≤ limit)
    (hends : (Text.padLeft width n).toList.length = limit ∨
      ∀ c ∈ rest.head?, c.isDigit = false) :
    digitsUpTo limit ((Text.padLeft width n).toList ++ rest) = some (n, rest) := by
  rw [digitsUpTo_append (Text.padLeft_ne_nil width n) (fun _ => Text.isDigit_of_mem_padLeft) hshort
    hends, Text.ofDigitChars_padLeft]

theorem yearDigits_of_isDigit {c : Char} (h : c.isDigit = true) (cs : List Char) :
    yearDigits (c :: cs) = (digitsUpTo 4 (c :: cs)).map fun (n, r) => ((n : Int), r) := by
  rw [yearDigits]
  · rintro _ ⟨⟩
    cases h
  · rintro _ ⟨⟩
    cases h

theorem yearDigits_renderYear (year : Int) {rest : List Char}
    (hends : ∀ c ∈ rest.head?, c.isDigit = false) :
    yearDigits ((renderYear year).toList ++ rest) = some (year, rest) := by
  have hwhole (n : Nat) : digitsUpTo ((Text.padLeft 4 n).toList ++ rest).length
      ((Text.padLeft 4 n).toList ++ rest) = some (n, rest) :=
    digitsUpTo_padLeft (by simp) (.inr hends)
  rw [renderYear]
  split
  · next hplain =>
    have hfour : (Text.padLeft 4 year.toNat).toList.length = 4 :=
      Text.length_padLeft (by decide) (show year.toNat < 10000 by omega)
    obtain ⟨c, cs, hdigits⟩ := List.exists_cons_of_length_eq_add_one hfour
    have hdigit : c.isDigit = true :=
      Text.isDigit_of_mem_padLeft (hdigits ▸ List.mem_cons_self)
    rw [hdigits, List.cons_append, yearDigits_of_isDigit hdigit, ← List.cons_append, ← hdigits,
      digitsUpTo_padLeft (Nat.le_of_eq hfour) (.inl hfour)]
    simp only [Option.map_some, Option.some_inj, Prod.mk.injEq, and_true]
    omega
  · split
    · next hnegative =>
      have hsigned : ("-" ++ Text.padLeft 4 year.natAbs).toList ++ rest =
          '-' :: ((Text.padLeft 4 year.natAbs).toList ++ rest) := by simp
      rw [hsigned, yearDigits, hwhole]
      simp only [Option.map_some, Option.some_inj, Prod.mk.injEq, and_true]
      omega
    · next hpositive =>
      have hsigned : ("+" ++ Text.padLeft 4 year.natAbs).toList ++ rest =
          '+' :: ((Text.padLeft 4 year.natAbs).toList ++ rest) := by simp
      rw [hsigned, yearDigits, hwhole]
      simp only [Option.map_some, Option.some_inj, Prod.mk.injEq, and_true]
      omega

theorem trimStart_renderYear (year : Int) (rest : List Char) :
    Text.trimStart ((renderYear year).toList ++ rest) = (renderYear year).toList ++ rest := by
  rw [renderYear]
  split
  · exact Text.trimStart_padLeft 4 year.toNat rest
  · split
    · rw [String.toList_append]
      exact Text.trimStart_of_not_blank (by decide) _
    · rw [String.toList_append]
      exact Text.trimStart_of_not_blank (by decide) _

theorem hyphen_cons (rest : List Char) : hyphen ('-' :: rest) = some rest := by
  rw [hyphen, Text.trimStart_of_not_blank (by decide)]
  rfl

theorem digitsUpTo_twoDigits {n : Nat} (hsmall : n < 100) (rest : List Char) :
    digitsUpTo 2 (Text.trimStart ((Text.padLeft 2 n).toList ++ rest)) = some (n, rest) := by
  have htwo : (Text.padLeft 2 n).toList.length = 2 := Text.length_padLeft (by decide) hsmall
  rw [Text.trimStart_padLeft, digitsUpTo_padLeft (Nat.le_of_eq htwo) (.inl htwo)]

theorem parse?_render {d : Date} (hfirst_le : first ≤ d) (hle_last : d ≤ last) :
    parse? d.render = some d := by
  obtain ⟨-, hdecember, -, hlastDay⟩ := exists_civil d
  have hday_le := Nat.le_trans hlastDay (Civil.daysIn_le d.civil.year d.civil.month)
  have htext : d.render.toList = (renderYear d.civil.year).toList ++
      '-' :: ((Text.padLeft 2 d.civil.month).toList ++
        '-' :: ((Text.padLeft 2 d.civil.day).toList ++ [])) := by
    simp [render]
  rw [parse?, htext, trimStart_renderYear, yearDigits_renderYear _ (by simp)]
  simp only [Option.bind_eq_bind, Option.bind_some, hyphen_cons,
    digitsUpTo_twoDigits (show d.civil.month < 100 by omega),
    digitsUpTo_twoDigits (show d.civil.day < 100 by omega)]
  exact ofCivil?_civil hfirst_le hle_last

theorem mem_calendar_of_parse? {text : String} {d : Date} (h : parse? text = some d) :
    first ≤ d ∧ d ≤ last := by
  simp only [parse?, Option.bind_eq_bind, Option.bind_eq_some_iff] at h
  obtain ⟨_, -, _, -, _, -, _, -, _, -, h⟩ := h
  split at h
  · exact mem_calendar_of_ofCivil? h
  · cases h

end Date

namespace TimeOfDay

theorem readPart_hours : ∀ n < 24, readPart 23 (Text.padLeft 2 n).toList = .ok n := by
  decide +kernel

theorem readPart_minutes : ∀ n < 60, readPart 59 (Text.padLeft 2 n).toList = .ok n := by
  decide +kernel

theorem hour_lt (t : TimeOfDay) : t.hour < 24 := by
  have := t.minutes_lt
  unfold hour
  omega

theorem minute_lt (t : TimeOfDay) : t.minute < 60 :=
  Nat.mod_lt _ (by decide)

theorem new?_hour_minute (t : TimeOfDay) : new? t.hour t.minute = some t := by
  rw [new?, dif_pos ⟨t.hour_lt, t.minute_lt⟩]
  obtain ⟨minutes, _⟩ := t
  simp only [hour, minute, Option.some_inj, mk.injEq]
  omega

theorem toList_render (t : TimeOfDay) : t.render.toList =
    (Text.padLeft 2 t.hour).toList ++ ':' :: (Text.padLeft 2 t.minute).toList := by
  simp [render]

theorem parse_render (t : TimeOfDay) : parse t.render = .ok t := by
  have htrimmed : Text.trim t.render.toList = t.render.toList := by
    rw [toList_render, Text.trim, Text.trimStart_padLeft, List.append_cons, Text.trimEnd_padLeft]
  rw [parse, read, htrimmed, toList_render, Text.fields_append (Text.colon_notMem_padLeft 2 _),
    Text.fields_of_notMem (Text.colon_notMem_padLeft 2 _), readParts, readPart_hours _ t.hour_lt,
    readPart_minutes _ t.minute_lt]
  simp only [bind, Except.bind, new?_hour_minute]
  rfl

end TimeOfDay

end Muezzin
