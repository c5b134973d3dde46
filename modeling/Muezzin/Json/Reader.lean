import Muezzin.Json.Value
import Muezzin.Text.Numeral

/-!
# Reading JSON text

The reader follows RFC 8259 to the letter: four blank characters, no leading zeros, no trailing
commas, no control characters in strings. Where the text goes wrong it puts `broken` and stops; the
remaining text is then `none`. Every step takes at least one character, so twice the length of the
text bounds the depth of the recursion.
-/

namespace Muezzin.Json

def isSpace (c : Char) : Bool :=
  c == ' ' || c == '\t' || c == '\n' || c == '\r'

def skipSpace (cs : List Char) : List Char :=
  cs.dropWhile isSpace

def hexDigit? (c : Char) : Option Nat :=
  if c.isDigit then some (c.toNat - '0'.toNat)
  else if 'a' ≤ c ∧ c ≤ 'f' then some (c.toNat - 'a'.toNat + 10)
  else if 'A' ≤ c ∧ c ≤ 'F' then some (c.toNat - 'A'.toNat + 10)
  else none

def hexUnit? (a b c d : Char) : Option Nat := do
  let a ← hexDigit? a
  let b ← hexDigit? b
  let c ← hexDigit? c
  let d ← hexDigit? d
  some (((a * 16 + b) * 16 + c) * 16 + d)

/-- The character after a backslash, other than `u`. -/
def escaped? : Char → Option Char
  | '"' => some '"'
  | '\\' => some '\\'
  | '/' => some '/'
  | 'b' => some '\x08'
  | 'f' => some '\x0c'
  | 'n' => some '\n'
  | 'r' => some '\r'
  | 't' => some '\t'
  | _ => none

def isHighSurrogate (unit : Nat) : Bool := 0xD800 ≤ unit && unit ≤ 0xDBFF

def isLowSurrogate (unit : Nat) : Bool := 0xDC00 ≤ unit && unit ≤ 0xDFFF

structure StringState where
  /-- The characters so far, the last one first. -/
  reversed : List Char := []
  /-- A high surrogate that waits for its other half. -/
  high : Option Nat := none
  good : Bool := true

namespace StringState

/-- A character that is no half of a pair; a waiting half stays alone. -/
def push (st : StringState) (c : Char) : StringState :=
  ⟨c :: st.reversed, none, st.good && st.high.isNone⟩

def pushUnit (st : StringState) (unit : Nat) : StringState :=
  match st.high with
  | some high =>
    if isLowSurrogate unit then
      let code := 0x10000 + (high - 0xD800) * 0x400 + (unit - 0xDC00)
      ⟨Char.ofNat code :: st.reversed, none, st.good⟩
    else { st with high := none, good := false }
  | none =>
    if isHighSurrogate unit then { st with high := some unit }
    else if isLowSurrogate unit then { st with good := false }
    else st.push (Char.ofNat unit)

def close (st : StringState) : Option String :=
  if st.good && st.high.isNone then some (String.ofList st.reversed.reverse) else none

end StringState

/-- The rest of a string after its opening quote, up to its closing quote. The inner `none` is a
string with an unpaired surrogate. -/
def stringTail (st : StringState) : List Char → Option (Option String × List Char)
  | [] => none
  | '"' :: rest => some (st.close, rest)
  | '\\' :: 'u' :: a :: b :: c :: d :: rest =>
    match hexUnit? a b c d with
    | some unit => stringTail (st.pushUnit unit) rest
    | none => none
  | '\\' :: c :: rest =>
    match escaped? c with
    | some c => stringTail (st.push c) rest
    | none => none
  | c :: rest => if c.toNat < 0x20 ∨ c = '\\' then none else stringTail (st.push c) rest

def digitsValue (cs : List Char) : Nat :=
  cs.foldl (fun n c => n * 10 + (c.toNat - '0'.toNat)) 0

def spanDigits (cs : List Char) : List Char × List Char :=
  cs.span Char.isDigit

def fractionPart : List Char → Option (List Char × List Char)
  | '.' :: rest =>
    let (digits, rest) := spanDigits rest
    if digits.isEmpty then none else some (digits, rest)
  | cs => some ([], cs)

/-- The exponent, `none` inside if there is none. -/
def exponentPart : List Char → Option (Option Int × List Char)
  | c :: rest =>
    if c = 'e' ∨ c = 'E' then
      let (negative, rest) :=
        match rest with
        | '-' :: r => (true, r)
        | '+' :: r => (false, r)
        | r => (false, r)
      let (digits, rest) := spanDigits rest
      if digits.isEmpty then none
      else
        let size : Int := digitsValue digits
        some (some (if negative then -size else size), rest)
    else some (none, c :: rest)
  | [] => some (none, [])

/-- The range of the whole numbers of 64 bits, which depends on the sign. Minus zero is none. -/
def isWholeNumber (negative : Bool) (n : Nat) : Bool :=
  if negative then 0 < n && n ≤ 9223372036854775808 else n ≤ 18446744073709551615

def number (negative : Bool) (cs : List Char) : Option (Json × List Char) := do
  let (whole, rest) := spanDigits cs
  if whole.isEmpty ∨ (whole.head? = some '0' ∧ whole.length ≠ 1) then none
  else
    let (fraction, rest) ← fractionPart rest
    let (exponent, rest) ← exponentPart rest
    let n := digitsValue whole
    if fraction.isEmpty ∧ exponent.isNone ∧ isWholeNumber negative n then
      some (.integer (if negative then -n else n), rest)
    else some (.decimal (.ofDigits whole fraction (exponent.getD 0)), rest)

def orBroken : Option (Json × List Char) → Json × Option (List Char)
  | some (v, rest) => (v, some rest)
  | none => (.broken, none)

mutual

def readValue : Nat → List Char → Json × Option (List Char)
  | 0, _ => (.broken, none)
  | fuel + 1, cs =>
    match skipSpace cs with
    | 'n' :: 'u' :: 'l' :: 'l' :: rest => (.null, some rest)
    | 't' :: 'r' :: 'u' :: 'e' :: rest => (.bool true, some rest)
    | 'f' :: 'a' :: 'l' :: 's' :: 'e' :: rest => (.bool false, some rest)
    | '"' :: rest =>
      orBroken <| (stringTail {} rest).map fun (s, r) => (s.elim .badString .string, r)
    | '[' :: rest =>
      match skipSpace rest with
      | ']' :: r => (.array [], some r)
      | _ =>
        let (items, r) := readItems fuel rest
        (.array items, r)
    | '{' :: rest =>
      match skipSpace rest with
      | '}' :: r => (.object [], some r)
      | _ =>
        let (members, r) := readMembers fuel rest
        (.object members, r)
    | '-' :: rest => orBroken (number true rest)
    | rest => orBroken (number false rest)

def readItems : Nat → List Char → List Json × Option (List Char)
  | 0, _ => ([.broken], none)
  | fuel + 1, cs =>
    match readValue fuel cs with
    | (v, none) => ([v], none)
    | (v, some rest) =>
      match skipSpace rest with
      | ',' :: r =>
        let (items, r) := readItems fuel r
        (v :: items, r)
      | ']' :: r => ([v], some r)
      | _ => ([v, .broken], none)

def readMembers : Nat → List Char → List (Option String × Json) × Option (List Char)
  | 0, _ => ([(none, .broken)], none)
  | fuel + 1, cs =>
    match skipSpace cs with
    | '"' :: rest =>
      match stringTail {} rest with
      | none => ([(none, .broken)], none)
      | some (name, rest) =>
        match skipSpace rest with
        | ':' :: r =>
          match readValue fuel r with
          | (v, none) => ([(name, v)], none)
          | (v, some rest) =>
            match skipSpace rest with
            | ',' :: r =>
              let (members, r) := readMembers fuel r
              ((name, v) :: members, r)
            | '}' :: r => ([(name, v)], some r)
            | _ => ([(name, v), (none, .broken)], none)
        | _ => ([(name, .broken)], none)
    | _ => ([(none, .broken)], none)

end

structure Document where
  root : Json
  /-- Something other than blanks follows the value. -/
  trailing : Bool

def Document.read (text : String) : Document :=
  let cs := text.toList
  match readValue (2 * cs.length + 2) cs with
  | (root, none) => ⟨root, false⟩
  | (root, some rest) => ⟨root, !(skipSpace rest).isEmpty⟩

end Muezzin.Json
