import Muezzin.Text.Blank

/-!
# Whole numbers in text

Reading a number reports the first character at which it goes wrong: a character that is no digit,
or a digit that carries the value out of the range. Writing pads with zeros on the left, or takes
two hexadecimal digits for a byte.
-/

namespace Muezzin.Text

inductive NumeralFault where
  | empty
  | invalidDigit
  | tooLarge
  | tooSmall
  deriving DecidableEq, Repr

def NumeralFault.message : NumeralFault → String
  | .empty => "cannot parse integer from empty string"
  | .invalidDigit => "invalid digit found in string"
  | .tooLarge => "number too large to fit in target type"
  | .tooSmall => "number too small to fit in target type"

def digit? (c : Char) : Option Nat :=
  if c.isDigit then some (c.toNat - '0'.toNat) else none

/-- Appends the digits of a text to `value`, which must not exceed `high`. -/
def readUp (high : Int) (value : Int) : List Char → Except NumeralFault Int
  | [] => .ok value
  | c :: cs =>
    match digit? c with
    | none => .error .invalidDigit
    | some d =>
      let next := value * 10 + d
      if high < next then .error .tooLarge else readUp high next cs

/-- Appends the digits of a text to the negative `value`, which must not fall below `low`. -/
def readDown (low : Int) (value : Int) : List Char → Except NumeralFault Int
  | [] => .ok value
  | c :: cs =>
    match digit? c with
    | none => .error .invalidDigit
    | some d =>
      let next := value * 10 - d
      if next < low then .error .tooSmall else readDown low next cs

/-- A number between `low` and `high`: one `+` may lead, and one `-` if negative numbers are in the
range. -/
def readInteger (low high : Int) : List Char → Except NumeralFault Int
  | [] => .error .empty
  | ['+'] => .error .invalidDigit
  | ['-'] => .error .invalidDigit
  | '+' :: cs => readUp high 0 cs
  | '-' :: cs => if low < 0 then readDown low 0 cs else .error .invalidDigit
  | cs => readUp high 0 cs

def readInt32 (cs : List Char) : Except NumeralFault Int :=
  readInteger (-2147483648) 2147483647 cs

def readInt64 (cs : List Char) : Except NumeralFault Int :=
  readInteger (-9223372036854775808) 9223372036854775807 cs

def padLeft (width n : Nat) : String :=
  let digits := toString n
  String.ofList (List.replicate (width - digits.length) '0') ++ digits

def hexDigit (n : Nat) : Char :=
  if n < 10 then Char.ofNat ('0'.toNat + n) else Char.ofNat ('a'.toNat + (n - 10))

def hexByte (n : Nat) : List Char :=
  [hexDigit (n / 16), hexDigit (n % 16)]

end Muezzin.Text
