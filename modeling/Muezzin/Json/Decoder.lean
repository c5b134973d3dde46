import Muezzin.Json.Position
import Muezzin.Json.Reader
import Muezzin.Error

/-!
# Decoding JSON values

A decoder walks a value in the order of its text and refuses it at the first fault, so a fault that
comes early in the text is reported even if the text breaks off later. A refusal carries an error
when the fault lies in the domain, such as an unknown prayer, and is `malformed` otherwise.

A record may be written as an object, in any order and with members it does not know, or as an
array of its fields in order; fields missing at the end keep their start value.
-/

namespace Muezzin.Json

inductive Refusal where
  | malformed
  | faulty (e : Error)
  deriving DecidableEq, Repr

abbrev Decoder (α : Type) := Json → Except Refusal α

namespace Decoder

variable {α β κ σ : Type}

def bool : Decoder Bool
  | .bool b => .ok b
  | _ => .error .malformed

def string : Decoder String
  | .string s => .ok s
  | _ => .error .malformed

def integer (low high : Int) : Decoder Int
  | .integer n => if low ≤ n ∧ n ≤ high then .ok n else .error .malformed
  | _ => .error .malformed

def int32 : Decoder Int32 := fun j =>
  (integer (-2147483648) 2147483647 j).map Int32.ofInt

def int64 : Decoder Int64 := fun j =>
  (integer (-9223372036854775808) 9223372036854775807 j).map Int64.ofInt

def uint64 : Decoder UInt64 := fun j =>
  (integer 0 18446744073709551615 j).map fun n => UInt64.ofNat n.toNat

def meaning (read : String → Except Error α) : Decoder α
  | .string s => (read s).mapError .faulty
  | _ => .error .malformed

def nullable (value : Decoder α) : Decoder (Option α)
  | .null => .ok none
  | j => (value j).map some

def list (value : Decoder α) : Decoder (List α)
  | .array items => items.mapM value
  | _ => .error .malformed

/-- The entries of an object in the order of the text. -/
def entries (name : String → Except Refusal κ) (value : Decoder α) : Decoder (List (κ × α))
  | .object members => members.mapM fun
    | (none, _) => .error .malformed
    | (some k, v) => do
      let k ← name k
      let v ← value v
      .ok (k, v)
  | _ => .error .malformed

/-- An object with prayers for names; of several entries for one slot the last stays. -/
def prayerTable (value : Decoder α) : Decoder (PrayerTable α) := fun j => do
  let es ← entries (fun k => (Prayer.parse k).mapError .faulty) value j
  .ok (es.foldl (fun t e => t.insert e.1 e.2) .empty)

structure Field (σ : Type) where
  name : String
  read : Json → σ → Except Refusal σ

def field (name : String) (value : Decoder α) (set : α → σ → σ) : Field σ :=
  ⟨name, fun j s => (value j).map (set · s)⟩

def positional : List (Field σ) → List Json → σ → Except Refusal σ
  | _, [], s => .ok s
  | [], _ :: _, _ => .error .malformed
  | f :: fs, v :: vs, s =>
    match f.read v s with
    | .error e => .error e
    | .ok s => positional fs vs s

/-- The fields of a record in the order of an object's text; `seen` must not come again. -/
def named (fields : List (Field σ)) (seen : List String) :
    List (Option String × Json) → σ → Except Refusal σ
  | [], s => .ok s
  | (none, _) :: _, _ => .error .malformed
  | (some k, v) :: rest, s =>
    match fields.find? fun f => f.name == k with
    | none => if v.isWhole then named fields seen rest s else .error .malformed
    | some f =>
      if seen.contains k then .error .malformed
      else
        match f.read v s with
        | .error e => .error e
        | .ok s => named fields (k :: seen) rest s

def record (fields : List (Field σ)) (start : σ) : Decoder σ
  | .array items => positional fields items start
  | .object members => named fields [] members start
  | _ => .error .malformed

/-- A record whose fields have to be complete in the end. -/
def completeRecord (fields : List (Field σ)) (start : σ) (complete : σ → Option α) : Decoder α :=
  fun j => do
    let s ← record fields start j
    match complete s with
    | some a => .ok a
    | none => .error .malformed

/-- A variant without fields: any object, or an array with nothing but the tag. -/
def unit (a : α) : Decoder α
  | .object _ => .ok a
  | .array [] => .ok a
  | _ => .error .malformed

def maxTaggedDepth : Nat := 126

def tagName : String := "type"

/-- One of several variants, told apart by a tag. The tag is the member `type` of an object, at any
place, or the first item of an array; the rest is decoded as the variant. All of the value has to
make sense, whether the variant looks at it or not. -/
def tagged (variant : String → Option (Decoder α)) : Decoder α := fun j =>
  if !j.isPlain || maxTaggedDepth < j.depth then .error .malformed
  else
    let decode := fun tag rest =>
      match variant tag with
      | some d => d rest
      | none => .error .malformed
    match j with
    | .array (.string tag :: rest) => decode tag (.array rest)
    | .object members =>
      match members.filter (·.1 == some tagName) with
      | [(_, .string tag)] => decode tag (.object (members.filter (·.1 != some tagName)))
      | _ => .error .malformed
    | _ => .error .malformed

def document (value : Decoder α) (text : String) : Except Refusal α := do
  let doc := Document.read text
  let a ← value doc.root
  if doc.trailing then .error .malformed else .ok a

end Decoder

/-- The wording of a fault in the domain that a text was refused for. -/
def Refusal.message? (text : String) : Refusal → Option String
  | malformed => none
  | faulty e =>
    let inside := (Document.read text).root.isCompound
    some (String.ofList (Position.wording inside e.message.toList))

end Muezzin.Json
