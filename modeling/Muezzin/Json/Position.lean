import Muezzin.Text.Numeral

/-!
# Positions in messages

A message about a document is the wording of a fault and then its position, ` at line L column C`,
and what is asked for is the wording. A wording that quotes the document can end like a position
too, and then that is taken for the position. Without one the fault is put where the reader was, if
it was inside of something; a value that is the whole document gets no position, and then nothing
but the last mark of one tells where the wording ends. Lines are counted from 1, so line 0 is as
good as no position.
-/

namespace Muezzin.Json.Position

def lineMark : List Char := " at line ".toList
def columnMark : List Char := " column ".toList

def number? (cs : List Char) : Option Nat :=
  if cs.all Char.isDigit then
    (Text.readInteger 0 18446744073709551615 cs).toOption.map Int.toNat
  else none

/-- The line of a position that is all of a text. -/
def line? (cs : List Char) : Option Nat := do
  let (line, rest) := (← lineMark.isPrefixOf? cs).span Char.isDigit
  let column ← columnMark.isPrefixOf? rest
  let _ ← number? column
  number? line

/-- The wording and the line of a text that ends with a position. -/
def split? : List Char → Option (List Char × Nat)
  | [] => none
  | c :: cs =>
    match line? (c :: cs) with
    | some line => some ([], line)
    | none => (split? cs).map fun (wording, line) => (c :: wording, line)

def beforeMark? : List Char → Option (List Char)
  | [] => none
  | c :: cs =>
    match beforeMark? cs with
    | some before => some (c :: before)
    | none => if lineMark.isPrefixOf (c :: cs) then some [] else none

/-- The wording of a fault; `inside` tells whether the reader was inside of something. -/
def wording (inside : Bool) (fault : List Char) : List Char :=
  let (wording, line) := (split? fault).getD (fault, 0)
  if inside || line != 0 then wording else (beforeMark? wording).getD wording

end Muezzin.Json.Position
