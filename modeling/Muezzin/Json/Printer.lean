import Muezzin.Json.Value
import Muezzin.Text.Numeral

/-!
# Writing JSON text

A value is written without blanks, members in their order. Only the characters that a string must
not hold are escaped. What no document can hold, an unpaired surrogate or a value that broke off, is
written as `null`.
-/

namespace Muezzin.Json

def escape (c : Char) : List Char :=
  if c = '"' ∨ c = '\\' then ['\\', c]
  else if c.toNat < 0x20 then
    ['\\', 'u', '0', '0'] ++ Text.hexByte c.toNat
  else [c]

def quote (s : String) : String :=
  "\"" ++ String.ofList (s.toList.flatMap escape) ++ "\""

mutual

def render : Json → String
  | .null => "null"
  | .bool b => if b then "true" else "false"
  | .integer n => toString n
  | .decimal d => toString d.significand ++ "e" ++ toString d.exponent
  | .string s => quote s
  | .badString => "null"
  | .array items => "[" ++ ",".intercalate (renderItems items) ++ "]"
  | .object members => "\x7b" ++ ",".intercalate (renderMembers members) ++ "\x7d"
  | .broken => "null"

def renderItems : List Json → List String
  | [] => []
  | v :: rest => v.render :: renderItems rest

def renderMembers : List (Option String × Json) → List String
  | [] => []
  | (name, v) :: rest => (quote (name.getD "") ++ ":" ++ v.render) :: renderMembers rest

end

end Muezzin.Json
