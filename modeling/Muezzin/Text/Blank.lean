/-!
# Blank space, pieces and letters of a text

Texts are read as lists of characters, so that every reader of the library is a recursion on the
list. Blank means the Unicode property White_Space, which is wider than the blanks of ASCII; letter
case is folded for ASCII alone, because the only names that are compared without case are ASCII.
-/

namespace Muezzin.Text

/-- Membership in the 25 code points of the property White_Space. -/
def isBlank (c : Char) : Bool :=
  let n := c.toNat
  (0x9 ≤ n && n ≤ 0xD) || n == 0x20 || n == 0x85 || n == 0xA0 || n == 0x1680 ||
    (0x2000 ≤ n && n ≤ 0x200A) || n == 0x2028 || n == 0x2029 || n == 0x202F || n == 0x205F ||
    n == 0x3000

def trimStart (cs : List Char) : List Char :=
  cs.dropWhile isBlank

def trimEnd (cs : List Char) : List Char :=
  (cs.reverse.dropWhile isBlank).reverse

def trim (cs : List Char) : List Char :=
  trimEnd (trimStart cs)

def allBlank (cs : List Char) : Bool :=
  cs.all isBlank

/-- The pieces between the occurrences of `sep`; there is always one more piece than separators. -/
def fields (sep : Char) : List Char → List (List Char)
  | [] => [[]]
  | c :: cs =>
    if c = sep then
      [] :: fields sep cs
    else
      match fields sep cs with
      | [] => [[c]]
      | piece :: pieces => (c :: piece) :: pieces

def dropReturn (line : List Char) : List Char :=
  if line.getLast? = some '\r' then line.dropLast else line

def lines (cs : List Char) : List (List Char) :=
  (fields '\n' cs).map dropReturn

def words (cs : List Char) : List (List Char) :=
  go [] cs
where
  /-- The piece that is being read is held, reversed, in `current`. -/
  go (current : List Char) : List Char → List (List Char)
    | [] => if current.isEmpty then [] else [current.reverse]
    | c :: cs =>
      if isBlank c then
        if current.isEmpty then go [] cs else current.reverse :: go [] cs
      else go (c :: current) cs

/-- ASCII letters in lower case, everything else unchanged. -/
def lower (cs : List Char) : List Char :=
  cs.map Char.toLower

def byteLength (cs : List Char) : Nat :=
  (String.ofList cs).utf8ByteSize

end Muezzin.Text
