import Muezzin.Text.Blank

/-!
# Paths as texts

A path is a list of names between slashes, from the root if a slash leads. Names that are empty and
single dots stand for nothing, except a dot at the very start, which stands for the working
directory.
-/

namespace Muezzin.Path

/-- The path of `file` seen from `dir`; an absolute path stays as it is. -/
def join (dir file : String) : String :=
  if file.startsWith "/" || dir.isEmpty then file
  else if dir.endsWith "/" then dir ++ file
  else dir ++ "/" ++ file

def reversedNames (cs : List Char) : List (List Char) :=
  (Text.fields '/' cs).reverse

/-- Drops names that stand for nothing from the end of a path. `dotLeads` keeps a dot that is the
whole of what is left. -/
def dropIdle (dotLeads : Bool) : List (List Char) → List (List Char)
  | [] => []
  | name :: rest =>
    if name = [] ∨ (name = ['.'] ∧ ¬(dotLeads ∧ rest = [])) then dropIdle dotLeads rest
    else name :: rest

def joinNames (reversed : List (List Char)) : String :=
  "/".intercalate (reversed.reverse.map String.ofList)

/-- The directory that a path lies in, as a text; empty for the working directory. The root and the
empty path lie in none. -/
def parent? (path : String) : Option String :=
  let (root, body, dotLeads) :=
    match path.toList with
    | '/' :: rest => ("/", rest, false)
    | cs => ("", cs, true)
  match dropIdle dotLeads (reversedNames body) with
  | [] => none
  | _ :: rest => some (root ++ joinNames (dropIdle dotLeads rest))

end Muezzin.Path
