import Mathlib
import Muezzin.Proofs.Attempts
import Muezzin.Proofs.Renderings

/-!
# The texts that are times of day

A time of day is read from a text of two or three parts with colons between them, each a number of
at most two characters. Blanks at the ends of the text and of its parts do not count, a plus may
take the place of the first digit, and a third part is checked and then forgotten. No other text is
read, and one that is refused is quoted as it was.
-/

namespace Muezzin

namespace Text

/-- A text and what is left of it without the blanks at both ends. -/
structure Trims (cs core : List Char) : Prop where
  around : ∃ before after, allBlank before ∧ allBlank after ∧ cs = before ++ core ++ after
  first : ∀ c ∈ core.head?, isBlank c = false
  last : ∀ c ∈ core.getLast?, isBlank c = false

/-- A text and its pieces, which have separators between them and none in them. -/
structure Splits (sep : Char) (cs : List Char) (pieces : List (List Char)) : Prop where
  joined : [sep].intercalate pieces = cs
  nonempty : pieces ≠ []
  plain : ∀ piece ∈ pieces, sep ∉ piece

/-- The numbers of at most two characters: one digit, two digits, or a plus and one digit. -/
inductive Figures : List Char → Nat → Prop
  | one {c : Char} {n : Nat} (hones : digit? c = some n) : Figures [c] n
  | two {c d : Char} {m n : Nat} (htens : digit? c = some m) (hones : digit? d = some n) :
    Figures [c, d] (10 * m + n)
  | plus {c : Char} {n : Nat} (hones : digit? c = some n) : Figures ['+', c] n

theorem trimStart_append_of_allBlank {before : List Char} (hblank : allBlank before)
    (cs : List Char) : trimStart (before ++ cs) = trimStart cs :=
  List.dropWhile_append_of_pos (List.all_eq_true.1 hblank)

theorem trimEnd_append_of_allBlank {after : List Char} (hblank : allBlank after)
    (cs : List Char) : trimEnd (cs ++ after) = trimEnd cs := by
  rw [trimEnd, List.reverse_append, List.dropWhile_append_of_pos fun c hc =>
    List.all_eq_true.1 hblank c (List.mem_reverse.1 hc)]
  rfl

theorem trimStart_eq_self {cs : List Char} (hfirst : ∀ c ∈ cs.head?, isBlank c = false) :
    trimStart cs = cs := by
  cases cs with
  | nil => rfl
  | cons c cs => exact trimStart_of_not_blank (hfirst c rfl) cs

theorem trimEnd_eq_self {cs : List Char} (hlast : ∀ c ∈ cs.getLast?, isBlank c = false) :
    trimEnd cs = cs := by
  rw [← List.head?_reverse] at hlast
  have hstays : cs.reverse.dropWhile isBlank = cs.reverse := trimStart_eq_self hlast
  rw [trimEnd, hstays, List.reverse_reverse]

theorem Trims.trim_eq {cs core : List Char} (htrims : Trims cs core) : trim cs = core := by
  obtain ⟨⟨before, after, hblank, hblank', rfl⟩, hfirst, hlast⟩ := htrims
  cases core with
  | nil =>
    have hnothing : trimStart after = [] := List.dropWhile_eq_nil_iff.2 (List.all_eq_true.1 hblank')
    rw [trim, List.append_nil, trimStart_append_of_allBlank hblank, hnothing]
    rfl
  | cons c core =>
    have hstart : trimStart (before ++ (c :: core) ++ after) = c :: core ++ after := by
      rw [List.append_assoc, trimStart_append_of_allBlank hblank]
      exact trimStart_of_not_blank (hfirst c rfl) _
    rw [trim, hstart, trimEnd_append_of_allBlank hblank', trimEnd_eq_self hlast]

theorem head?_trimStart (cs : List Char) : ∀ c ∈ (trimStart cs).head?, isBlank c = false := by
  intro c hfirst
  have hnotBlank := List.head?_dropWhile_not isBlank cs
  rwa [show (cs.dropWhile isBlank).head? = some c from hfirst] at hnotBlank

theorem allBlank_takeWhile (cs : List Char) : allBlank (cs.takeWhile isBlank) :=
  List.all_eq_true.2 fun _ => List.mem_takeWhile_imp

theorem trimEnd_append_blanks (cs : List Char) :
    trimEnd cs ++ (cs.reverse.takeWhile isBlank).reverse = cs := by
  rw [trimEnd, ← List.reverse_append, List.takeWhile_append_dropWhile, List.reverse_reverse]

theorem trims_trim (cs : List Char) : Trims cs (trim cs) where
  around := by
    refine ⟨cs.takeWhile isBlank, ((trimStart cs).reverse.takeWhile isBlank).reverse,
      allBlank_takeWhile cs, ?_, ?_⟩
    · rw [allBlank, List.all_reverse]
      exact allBlank_takeWhile _
    · rw [trim, List.append_assoc, trimEnd_append_blanks]
      exact List.takeWhile_append_dropWhile.symm
  first := by
    intro c hfirst
    refine head?_trimStart cs c ?_
    have hkept : (trimEnd (trimStart cs)).head? = some c := hfirst
    rw [← trimEnd_append_blanks (trimStart cs), List.head?_append, hkept]
    rfl
  last := by
    intro c hlast
    rw [trim, trimEnd, List.getLast?_reverse] at hlast
    exact head?_trimStart _ c hlast

/-- Trimming takes off the blanks at both ends, and nothing else. -/
theorem trims_iff {cs core : List Char} : Trims cs core ↔ trim cs = core :=
  ⟨Trims.trim_eq, fun htrimmed => htrimmed ▸ trims_trim cs⟩

theorem fields_eq_splitOn (sep : Char) (cs : List Char) : fields sep cs = cs.splitOn sep := by
  rw [List.splitOn_eq_splitOnP]
  induction cs with
  | nil => rfl
  | cons c cs ih =>
    rw [fields, ih, List.splitOnP_cons_eq_if_modifyHead]
    by_cases hsame : c = sep
    · simp [hsame]
    · obtain ⟨piece, pieces, hparts⟩ :=
        List.exists_cons_of_ne_nil (List.splitOnP_ne_nil (· == sep) cs)
      simp [hsame, hparts]

theorem notMem_of_mem_fields {sep : Char} {cs piece : List Char} (h : piece ∈ fields sep cs) :
    sep ∉ piece := by
  induction cs generalizing piece with
  | nil => simp_all [fields]
  | cons c cs ih =>
    rw [fields] at h
    split at h
    · rcases List.mem_cons.1 h with rfl | h
      · exact List.not_mem_nil
      · exact ih h
    · next hother =>
      split at h
      · rw [List.mem_singleton.1 h, List.mem_singleton]
        exact Ne.symm hother
      · next first rest hparts =>
        rw [hparts] at ih
        rcases List.mem_cons.1 h with rfl | h
        · exact List.not_mem_cons_of_ne_of_not_mem (Ne.symm hother) (ih List.mem_cons_self)
        · exact ih (List.mem_cons_of_mem _ h)

/-- Splitting a text undoes the joining of pieces that have no separator in them. -/
theorem splits_iff {sep : Char} {cs : List Char} {pieces : List (List Char)} :
    Splits sep cs pieces ↔ fields sep cs = pieces := by
  rw [fields_eq_splitOn]
  constructor
  · rintro ⟨rfl, hnonempty, hplain⟩
    exact List.splitOn_intercalate sep hplain hnonempty
  · rintro rfl
    refine ⟨List.intercalate_splitOn sep, List.splitOn_ne_nil sep cs, fun piece h => ?_⟩
    rw [← fields_eq_splitOn] at h
    exact notMem_of_mem_fields h

theorem fields_append_front {sep : Char} {before : List Char} (habsent : sep ∉ before)
    (cs : List Char) :
    ∃ first rest, fields sep cs = first :: rest ∧
      fields sep (before ++ cs) = (before ++ first) :: rest := by
  induction before with
  | nil =>
    obtain ⟨first, rest, hparts⟩ := List.exists_cons_of_ne_nil
      (fields_eq_splitOn sep cs ▸ List.splitOn_ne_nil sep cs)
    exact ⟨first, rest, hparts, hparts⟩
  | cons c before ih =>
    obtain ⟨hother, habsent⟩ := List.ne_and_not_mem_of_not_mem_cons habsent
    obtain ⟨first, rest, hparts, hlonger⟩ := ih habsent
    refine ⟨first, rest, hparts, ?_⟩
    rw [List.cons_append, fields, if_neg hother.symm, hlonger]
    rfl

theorem fields_append_back {sep : Char} {after : List Char} (habsent : sep ∉ after)
    (cs : List Char) :
    ∃ front last, fields sep cs = front ++ [last] ∧
      fields sep (cs ++ after) = front ++ [last ++ after] := by
  induction cs with
  | nil => exact ⟨[], [], rfl, fields_of_notMem habsent⟩
  | cons c cs ih =>
    obtain ⟨front, last, hparts, hlonger⟩ := ih
    by_cases hsame : c = sep
    · refine ⟨[] :: front, last, ?_, ?_⟩
      · rw [fields, if_pos hsame, hparts, List.cons_append]
      · rw [List.cons_append, fields, if_pos hsame, hlonger, List.cons_append]
    · rw [List.cons_append, fields, if_neg hsame, hparts, fields, if_neg hsame, hlonger]
      cases front with
      | nil => exact ⟨[], c :: last, rfl, rfl⟩
      | cons piece front => exact ⟨(c :: piece) :: front, last, rfl, rfl⟩

theorem trim_append_blanks {before after : List Char} (hblank : allBlank before)
    (hblank' : allBlank after) (cs : List Char) : trim (before ++ cs ++ after) = trim cs := by
  obtain ⟨⟨before', after', hblankToo, hblankToo', hwhole⟩, hfirst, hlast⟩ := trims_trim cs
  refine Trims.trim_eq ⟨⟨before ++ before', after' ++ after, ?_, ?_, ?_⟩, hfirst, hlast⟩
  · rw [allBlank, List.all_append, Bool.and_eq_true]
    exact ⟨hblank, hblankToo⟩
  · rw [allBlank, List.all_append, Bool.and_eq_true]
    exact ⟨hblankToo', hblank'⟩
  · conv_lhs => rw [hwhole]
    simp only [List.append_assoc]

theorem trim_trim (cs : List Char) : trim (trim cs) = trim cs := by
  obtain ⟨-, hfirst, hlast⟩ := trims_trim cs
  exact Trims.trim_eq ⟨⟨[], [], rfl, rfl, (List.append_nil _).symm⟩, hfirst, hlast⟩

theorem map_trim_fields_trim {sep : Char} (hvisible : isBlank sep = false) (cs : List Char) :
    (fields sep (trim cs)).map trim = (fields sep cs).map trim := by
  have habsent {blanks : List Char} (hblank : allBlank blanks) : sep ∉ blanks := by
    intro h
    rw [List.all_eq_true.1 hblank sep h] at hvisible
    cases hvisible
  obtain ⟨before, after, hblank, hblank', hwhole⟩ := (trims_trim cs).around
  obtain ⟨first, rest, hparts, hlonger⟩ := fields_append_front (habsent hblank) (trim cs)
  obtain ⟨front, last, hparts', hlonger'⟩ := fields_append_back (habsent hblank')
    (before ++ trim cs)
  have hatFront : trim (before ++ first) = trim first := by
    have hpadded : trim (before ++ first ++ []) = trim first := trim_append_blanks hblank rfl first
    rwa [List.append_nil] at hpadded
  have hatBack : trim (last ++ after) = trim last := by
    have hpadded : trim ([] ++ last ++ after) = trim last := trim_append_blanks rfl hblank' last
    rwa [List.nil_append] at hpadded
  calc (fields sep (trim cs)).map trim = (fields sep (before ++ trim cs)).map trim := by
        rw [hparts, hlonger, List.map_cons, List.map_cons, hatFront]
    _ = (fields sep (before ++ trim cs ++ after)).map trim := by
        rw [hparts', hlonger', List.map_append, List.map_append, List.map_singleton,
          List.map_singleton, hatBack]
    _ = (fields sep cs).map trim := by rw [← hwhole]

/-! ### Numbers of at most two characters -/

theorem isDigit_of_digit? {c : Char} {n : Nat} (hdigit : digit? c = some n) :
    c.isDigit = true ∧ n ≤ 9 := by
  unfold digit? at hdigit
  split at hdigit
  · next hisDigit =>
    have hrange : 48 ≤ c.toNat ∧ c.toNat ≤ 57 := by
      simpa [Char.isDigit, UInt32.le_iff_toNat_le] using hisDigit
    cases hdigit
    refine ⟨hisDigit, ?_⟩
    show c.toNat - 48 ≤ 9
    omega
  · cases hdigit

theorem utf8Size_of_isDigit {c : Char} (hdigit : c.isDigit = true) : c.utf8Size = 1 := by
  have hrange : 48 ≤ c.toNat ∧ c.toNat ≤ 57 := by
    simpa [Char.isDigit, UInt32.le_iff_toNat_le] using hdigit
  rw [Char.utf8Size_eq_one_iff, UInt32.le_iff_toNat_le]
  show c.toNat ≤ 127
  omega

theorem length_le_byteLength (cs : List Char) : cs.length ≤ byteLength cs := by
  rw [byteLength, String.utf8ByteSize_ofList]
  induction cs with
  | nil => exact Nat.le_refl 0
  | cons c cs ih =>
    have := c.utf8Size_pos
    rw [List.length_cons, String.utf8Len_cons]
    omega

namespace Figures

variable {cs : List Char} {n : Nat}

theorem ne_nil (hfigures : Figures cs n) : cs ≠ [] := by
  cases hfigures <;> exact List.cons_ne_nil _ _

theorem byteLength_le (hfigures : Figures cs n) : byteLength cs ≤ 2 := by
  have hsize {c : Char} {n : Nat} (hdigit : digit? c = some n) : c.utf8Size = 1 :=
    utf8Size_of_isDigit (isDigit_of_digit? hdigit).1
  rw [byteLength, String.utf8ByteSize_ofList]
  cases hfigures with
  | one hones => simp [hsize hones]
  | two htens hones => simp [hsize htens, hsize hones]
  | plus hones => simp [hsize hones, show '+'.utf8Size = 1 from rfl]

theorem one_iff {c : Char} : Figures [c] n ↔ digit? c = some n :=
  ⟨fun | .one hones => hones, .one⟩

theorem plus_iff {c : Char} : Figures ['+', c] n ↔ digit? c = some n := by
  refine ⟨fun hfigures => ?_, .plus⟩
  cases hfigures with
  | two htens hones => cases htens
  | plus hones => exact hones

theorem two_iff {c d : Char} (hdigits : c ≠ '+') :
    Figures [c, d] n ↔ ∃ tens ones, digit? c = some tens ∧ digit? d = some ones ∧
      n = 10 * tens + ones := by
  constructor
  · intro hfigures
    cases hfigures with
    | two htens hones => exact ⟨_, _, htens, hones, rfl⟩
    | plus hones => exact absurd rfl hdigits
  · rintro ⟨tens, ones, hfirst, hsecond, rfl⟩
    exact .two hfirst hsecond

end Figures

theorem readUp_cons_iff {high value n : Int} {c : Char} {cs : List Char}
    (hroom : value * 10 + 9 ≤ high) :
    readUp high value (c :: cs) = .ok n ↔
      ∃ d : Nat, digit? c = some d ∧ readUp high (value * 10 + d) cs = .ok n := by
  rw [readUp]
  cases hdigit : digit? c with
  | none => simp
  | some d =>
    have hsmall : d ≤ 9 := (isDigit_of_digit? hdigit).2
    dsimp only
    rw [if_neg (by omega)]
    simp

theorem readUp_two_iff {c d : Char} {n : Int} :
    readUp 4294967295 0 [c, d] = .ok n ↔ ∃ tens ones : Nat, digit? c = some tens ∧
      digit? d = some ones ∧ n = ((10 * tens + ones : Nat) : Int) := by
  rw [readUp_cons_iff (by decide)]
  constructor
  · rintro ⟨tens, hfirst, hrest⟩
    have hsmall : tens ≤ 9 := (isDigit_of_digit? hfirst).2
    obtain ⟨ones, hsecond, hwhole⟩ := (readUp_cons_iff (by omega)).1 hrest
    cases hwhole
    exact ⟨tens, ones, hfirst, hsecond, by omega⟩
  · rintro ⟨tens, ones, hfirst, hsecond, rfl⟩
    have hsmall : tens ≤ 9 := (isDigit_of_digit? hfirst).2
    refine ⟨tens, hfirst, (readUp_cons_iff (by omega)).2 ⟨ones, hsecond, ?_⟩⟩
    exact congrArg Except.ok (by omega)

/-- Of texts with at most two bytes, a number of 32 bits is read from the figures alone. -/
theorem readInteger_iff_figures {cs : List Char} (hnonempty : cs ≠ []) (hshort : byteLength cs ≤ 2)
    {n : Int} :
    readInteger 0 4294967295 cs = .ok n ↔ ∃ k : Nat, Figures cs k ∧ n = k := by
  have hfew := Nat.le_trans (length_le_byteLength cs) hshort
  match cs, hnonempty, hfew with
  | [c], _, _ =>
    by_cases hplus : c = '+'
    · subst hplus
      simp [readInteger, Figures.one_iff, show digit? '+' = none from rfl]
    · by_cases hminus : c = '-'
      · subst hminus
        simp [readInteger, Figures.one_iff, show digit? '-' = none from rfl]
      · have hunsigned : readInteger 0 4294967295 [c] = readUp 4294967295 0 [c] := by
          rw [readInteger] <;> simp_all
        rw [hunsigned, readUp_cons_iff (by decide)]
        simp [readUp, Figures.one_iff, eq_comm]
  | [c, d], _, _ =>
    by_cases hplus : c = '+'
    · subst hplus
      have hsigned : readInteger 0 4294967295 ['+', d] = readUp 4294967295 0 [d] := rfl
      rw [hsigned, readUp_cons_iff (by decide)]
      simp [readUp, Figures.plus_iff, eq_comm]
    · by_cases hminus : c = '-'
      · subst hminus
        simp [readInteger, Figures.two_iff hplus, show digit? '-' = none from rfl]
      · have hunsigned : readInteger 0 4294967295 [c, d] = readUp 4294967295 0 [c, d] := by
          rw [readInteger] <;> simp_all
        rw [hunsigned, readUp_two_iff]
        constructor
        · rintro ⟨tens, ones, hfirst, hsecond, rfl⟩
          exact ⟨_, (Figures.two_iff hplus).2 ⟨tens, ones, hfirst, hsecond, rfl⟩, rfl⟩
        · rintro ⟨k, hfigures, rfl⟩
          obtain ⟨tens, ones, hfirst, hsecond, rfl⟩ := (Figures.two_iff hplus).1 hfigures
          exact ⟨tens, ones, hfirst, hsecond, rfl⟩

end Text

namespace TimeOfDay

open Text

/-- A part of a time: a number of at most two characters up to `limit`, with blanks around it. -/
def Part (limit : Nat) (part : List Char) (n : Nat) : Prop :=
  (∃ core, Trims part core ∧ Figures core n) ∧ n ≤ limit

/-- The text is that of the time: hours, minutes and perhaps seconds, with colons between them and
with blanks around everything. -/
def Spells (text : String) (t : TimeOfDay) : Prop :=
  ∃ core hours minutes rest, Trims text.toList core ∧
    Splits ':' core (hours :: minutes :: rest) ∧ rest.length ≤ 1 ∧
    Part 23 hours t.hour ∧ Part 59 minutes t.minute ∧ ∀ seconds ∈ rest, ∃ n, Part 59 seconds n

theorem readPart_eq_ok_iff {limit n : Nat} {part : List Char} :
    readPart limit part = .ok n ↔ Part limit part n := by
  have hwhole : Part limit part n ↔ Figures (trim part) n ∧ n ≤ limit := by
    simp [Part, trims_iff]
  rw [hwhole, readPart]
  split
  · next hunfit =>
    refine iff_of_false nofun fun ⟨hfigures, _⟩ => ?_
    rw [Bool.or_eq_true, List.isEmpty_iff, decide_eq_true_eq] at hunfit
    exact hunfit.elim hfigures.ne_nil (Nat.not_lt.2 hfigures.byteLength_le)
  · next hfits =>
    rw [Bool.or_eq_true, List.isEmpty_iff, decide_eq_true_eq, not_or, Nat.not_lt] at hfits
    have hnumber {k : Int} := readInteger_iff_figures hfits.1 hfits.2 (n := k)
    split
    · next fault hread =>
      refine iff_of_false nofun fun ⟨hfigures, _⟩ => ?_
      have := hnumber.2 ⟨n, hfigures, rfl⟩
      rw [hread] at this
      cases this
    · next k hread =>
      obtain ⟨m, hfigures, rfl⟩ := hnumber.1 hread
      have honly (hfigures' : Figures (trim part) n) : m = n := by
        have := hnumber.2 ⟨n, hfigures', rfl⟩
        rw [hread, Except.ok.injEq] at this
        exact Int.ofNat.inj this
      rw [Int.toNat_natCast]
      constructor
      · intro hwithin
        split at hwithin
        · next hle =>
          cases hwithin
          exact ⟨hfigures, hle⟩
        · cases hwithin
      · rintro ⟨hfigures', hle⟩
        obtain rfl := honly hfigures'
        exact if_pos hle

theorem readParts_eq_ok_iff {parts : List (List Char)} {h m : Nat} :
    readParts parts = .ok (h, m) ↔ ∃ hours minutes rest, parts = hours :: minutes :: rest ∧
      rest.length ≤ 1 ∧ Part 23 hours h ∧ Part 59 minutes m ∧
      ∀ seconds ∈ rest, ∃ n, Part 59 seconds n := by
  match parts with
  | [] => simp [readParts]
  | [hours] => simp [readParts, bind_eq_ok_iff]
  | [hours, minutes] =>
    simp [readParts, bind_eq_ok_iff, readPart_eq_ok_iff]
  | hours :: minutes :: seconds :: rest =>
    cases rest with
    | nil => simp [readParts, bind_eq_ok_iff, readPart_eq_ok_iff]
    | cons more rest => simp [readParts, bind_eq_ok_iff]

theorem new?_eq_some_iff {h m : Nat} {t : TimeOfDay} :
    new? h m = some t ↔ t.hour = h ∧ t.minute = m := by
  constructor
  · intro hmade
    unfold new? at hmade
    split at hmade
    · cases hmade
      simp only [hour, minute]
      omega
    · cases hmade
  · rintro ⟨rfl, rfl⟩
    exact t.new?_hour_minute

theorem read_eq_ok_iff {cs : List Char} {t : TimeOfDay} :
    read cs = .ok t ↔ readParts (fields ':' (trim cs)) = .ok (t.hour, t.minute) := by
  rw [read, bind_eq_ok_iff]
  constructor
  · rintro ⟨⟨h, m⟩, hparts, hmade⟩
    dsimp only at hmade
    split at hmade
    · next hwhole =>
      cases hmade
      obtain ⟨rfl, rfl⟩ := new?_eq_some_iff.1 hwhole
      exact hparts
    · cases hmade
  · intro hparts
    exact ⟨_, hparts, by dsimp only; rw [new?_hour_minute]⟩

theorem parse_eq_ok_iff {text : String} {t : TimeOfDay} :
    parse text = .ok t ↔ Spells text t := by
  rw [parse, mapError_eq_ok_iff, read_eq_ok_iff]
  simp [Spells, trims_iff, splits_iff, readParts_eq_ok_iff]

/-- The text is what is written for the time, with blanks around it and around its parts and perhaps
with seconds after it. -/
def SpellsLoosely (text : String) (t : TimeOfDay) : Prop :=
  ∃ hh mm hours minutes rest before after, Splits ':' t.render.toList [hh, mm] ∧
    Trims hours hh ∧ Trims minutes mm ∧ rest.length ≤ 1 ∧
    (∀ seconds ∈ rest, ∃ n, Part 59 seconds n) ∧ allBlank before ∧ allBlank after ∧
    text.toList = before ++ [':'].intercalate (hours :: minutes :: rest) ++ after

theorem readPart_trim (limit : Nat) (part : List Char) :
    readPart limit (trim part) = readPart limit part := by
  simp only [readPart, trim_trim]

theorem readParts_map_trim (parts : List (List Char)) :
    readParts (parts.map trim) = readParts parts := by
  match parts with
  | [] => rfl
  | [hours] => simp only [List.map_cons, List.map_nil, readParts, readPart_trim]
  | [hours, minutes] => simp only [List.map_cons, List.map_nil, readParts, readPart_trim]
  | hours :: minutes :: seconds :: rest =>
    simp only [List.map_cons, readParts, readPart_trim, List.isEmpty_map]

theorem Part.colon_notMem {limit n : Nat} {part : List Char} (hpart : Part limit part n) :
    ':' ∉ part := by
  obtain ⟨⟨core, ⟨⟨before, after, hblank, hblank', rfl⟩, -, -⟩, hfigures⟩, -⟩ := hpart
  have hvisible {blanks : List Char} (hblank : allBlank blanks) : ':' ∉ blanks :=
    fun h => absurd (List.all_eq_true.1 hblank _ h) (by decide)
  have hnotDigit {c : Char} {n : Nat} (hdigit : digit? c = some n) : ':' ≠ c := by
    rintro rfl
    cases hdigit
  have habsent : ':' ∉ core := by
    cases hfigures with
    | one hones => simpa using hnotDigit hones
    | two htens hones => simpa using ⟨hnotDigit htens, hnotDigit hones⟩
    | plus hones => simpa using hnotDigit hones
  simpa using ⟨hvisible hblank, habsent, hvisible hblank'⟩

theorem SpellsLoosely.parse_eq {text : String} {t : TimeOfDay} (hspells : SpellsLoosely text t) :
    parse text = .ok t := by
  obtain ⟨hh, mm, hours, minutes, rest, before, after, hwritten, hhours, hminutes, hfew, hseconds,
    hblank, hblank', hwhole⟩ := hspells
  rw [splits_iff, toList_render, fields_append (colon_notMem_padLeft 2 _),
    fields_of_notMem (colon_notMem_padLeft 2 _)] at hwritten
  simp only [List.cons.injEq, and_true] at hwritten
  obtain ⟨hhours_eq, hminutes_eq⟩ := hwritten
  have hpartHours : Part 23 hours t.hour := by
    rw [← readPart_eq_ok_iff, ← readPart_trim, hhours.trim_eq, ← hhours_eq]
    exact readPart_hours _ t.hour_lt
  have hpartMinutes : Part 59 minutes t.minute := by
    rw [← readPart_eq_ok_iff, ← readPart_trim, hminutes.trim_eq, ← hminutes_eq]
    exact readPart_minutes _ t.minute_lt
  have hsplit : fields ':' ([':'].intercalate (hours :: minutes :: rest)) =
      hours :: minutes :: rest := by
    refine splits_iff.1 ⟨rfl, List.cons_ne_nil _ _, ?_⟩
    simp only [List.forall_mem_cons]
    refine ⟨hpartHours.colon_notMem, hpartMinutes.colon_notMem, fun part h => ?_⟩
    obtain ⟨n, hpart⟩ := hseconds part h
    exact hpart.colon_notMem
  rw [parse, mapError_eq_ok_iff, read_eq_ok_iff, hwhole, trim_append_blanks hblank hblank',
    ← readParts_map_trim, map_trim_fields_trim (by decide), readParts_map_trim, hsplit,
    readParts_eq_ok_iff]
  exact ⟨hours, minutes, rest, rfl, hfew, hpartHours, hpartMinutes, hseconds⟩

theorem eq_badTime_of_parse {text : String} {e : Error} (hrefused : parse text = .error e) :
    ∃ fault, e = .badTime text fault := by
  unfold parse at hrefused
  cases hresult : read text.toList with
  | ok t =>
    rw [hresult] at hrefused
    cases hrefused
  | error fault =>
    rw [hresult] at hrefused
    cases hrefused
    exact ⟨fault, rfl⟩

/-- Exactly the texts of this form are read, and what is read is the hour and the minute. Every
other text is quoted as it was. Written times are read whatever blanks and seconds are added. -/
theorem parse_exact (text : String) :
    (∀ t, parse text = .ok t ↔ Spells text t) ∧
    ((¬ ∃ t, Spells text t) ↔ ∃ e, parse text = .error e) ∧
    (∀ e, parse text = .error e → ∃ fault : TimeFault, e = .badTime text fault ∧
      e.kind = .invalidTime ∧
      e.message = "Invalid time input: " ++ ("'" ++ text ++ "' " ++ fault.complaint)) ∧
    ∀ t, SpellsLoosely text t → parse text = .ok t := by
  refine ⟨fun t => parse_eq_ok_iff, ?_, fun e hrefused => ?_, fun t => SpellsLoosely.parse_eq⟩
  · simp only [← parse_eq_ok_iff]
    cases parse text <;> simp
  · obtain ⟨fault, rfl⟩ := eq_badTime_of_parse hrefused
    exact ⟨fault, rfl, rfl, rfl⟩

/-- Five past seven, with a tab, blanks and a signed second. -/
theorem parse_exact_spaced :
    let t : TimeOfDay := ⟨425, by decide⟩
    SpellsLoosely "\t07 :\u200305: +9" t ∧ parse "\t07 :\u200305: +9" = .ok t := by
  intro t
  have hloosely : SpellsLoosely "\t07 :\u200305: +9" t := by
    refine ⟨['0', '7'], ['0', '5'], ['0', '7', ' '], ['\u2003', '0', '5'], [[' ', '+', '9']],
      ['\t'], [], splits_iff.2 (by decide), trims_iff.2 (by decide), trims_iff.2 (by decide),
      by decide, List.forall_mem_singleton.2 ⟨9, ?_, by decide⟩, by decide, by decide, by decide⟩
    exact ⟨['+', '9'], trims_iff.2 (by decide), .plus rfl⟩
  exact ⟨hloosely, (parse_exact _).2.2.2 t hloosely⟩

end TimeOfDay

end Muezzin
