import Muezzin.Json.Decimal

/-!
# JSON values as a reader meets them

A document that goes wrong somewhere still has a part that was read before that point, and a
decoder may find fault with that part first. So a value can end in `broken`, the point after which
the text makes no sense, and decoders walk a value in the order of its text. Two more shapes keep
what a lenient reader may pass over: a string with half of a surrogate pair, and a number that is
no whole number of 64 bits.
-/

namespace Muezzin

inductive Json where
  | null
  | bool (b : Bool)
  /-- A whole number of 64 bits, signed or not, written without fraction and exponent. -/
  | integer (n : Int)
  | decimal (d : Decimal)
  | string (s : String)
  /-- A string with an unpaired surrogate. -/
  | badString
  | array (items : List Json)
  /-- Members in the order of the text; a name with an unpaired surrogate is `none`. -/
  | object (members : List (Option String × Json))
  /-- The text makes no sense from here on. -/
  | broken
  deriving Inhabited

namespace Json

def record (members : List (String × Json)) : Json :=
  .object (members.map fun m => (some m.1, m.2))

mutual

def all (p : Json → Bool) : Json → Bool
  | .array items => p (.array items) && allItems p items
  | .object members => p (.object members) && allMembers p members
  | v => p v

def allItems (p : Json → Bool) : List Json → Bool
  | [] => true
  | v :: rest => v.all p && allItems p rest

def allMembers (p : Json → Bool) : List (Option String × Json) → Bool
  | [] => true
  | (_, v) :: rest => v.all p && allMembers p rest

end

def isBroken : Json → Bool
  | .broken => true
  | _ => false

def isCompound : Json → Bool
  | .array _ => true
  | .object _ => true
  | _ => false

/-- No `broken` inside: the text of the value is complete. -/
def isWhole (v : Json) : Bool :=
  v.all fun w => !w.isBroken

/-- The value, apart from what is inside it, is text and finite doubles only. -/
def isPlainOutside : Json → Bool
  | .object members => members.all (·.1.isSome)
  | .decimal d => d.hasDouble
  | .badString => false
  | .broken => false
  | _ => true

def isPlain (v : Json) : Bool :=
  v.all isPlainOutside

mutual

def depth : Json → Nat
  | .array items => 1 + depthOfItems items
  | .object members => 1 + depthOfMembers members
  | _ => 0

def depthOfItems : List Json → Nat
  | [] => 0
  | v :: rest => max v.depth (depthOfItems rest)

def depthOfMembers : List (Option String × Json) → Nat
  | [] => 0
  | (_, v) :: rest => max v.depth (depthOfMembers rest)

end

end Json

end Muezzin
