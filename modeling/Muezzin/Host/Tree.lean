import Muezzin.Host
import Muezzin.Text.Blank

/-!
# A described host

A tree of files and directories with a working directory in it, next to the directories, files and
programs that every Unix machine has. Paths are walked name by name: every name but the last has to
be a directory, and a slash at the end asks for one.
-/

namespace Muezzin

inductive Node where
  | directory
  | file (content : ByteArray)

/-- The names from the root to a file or directory. -/
abbrev Place := List String

structure Tree where
  entries : List (Place × Node) := []

namespace Tree

/-- The working directory. Its name is one that no path can spell, so only relative paths lead
into it. -/
def workingDirectory : Place := ["tmp", ""]

def standardDirectories : List Place :=
  [[], ["bin"], ["boot"], ["dev"], ["etc"], ["home"], ["lib"], ["media"], ["mnt"], ["opt"],
   ["proc"], ["root"], ["run"], ["sbin"], ["srv"], ["sys"], ["tmp"], ["usr"], ["usr", "bin"],
   ["usr", "lib"], ["usr", "local"], ["usr", "local", "bin"], ["usr", "sbin"], ["usr", "share"],
   ["var"], ["var", "cache"], ["var", "lib"], ["var", "log"], ["var", "tmp"]]

/-- Files and devices. Nothing is known of what they hold, except that it is no document. -/
def standardFiles : List Place :=
  [["dev", "full"], ["dev", "null"], ["dev", "random"], ["dev", "tty"], ["dev", "urandom"],
   ["dev", "zero"], ["etc", "group"], ["etc", "hostname"], ["etc", "hosts"], ["etc", "os-release"],
   ["etc", "passwd"], ["etc", "resolv.conf"], ["proc", "cpuinfo"], ["proc", "meminfo"],
   ["proc", "uptime"], ["proc", "version"]]

/-- Programs that are found by name alone. -/
def standardPrograms : List String :=
  ["basename", "bash", "cat", "chmod", "cp", "cut", "date", "dd", "df", "dirname", "du", "echo",
   "env", "expr", "false", "find", "grep", "head", "id", "kill", "ln", "ls", "mkdir", "mktemp",
   "mv", "nice", "nohup", "od", "paste", "printenv", "printf", "pwd", "rm", "rmdir", "sed", "seq",
   "sh", "sleep", "sort", "stat", "stty", "sync", "tail", "tee", "test", "timeout", "touch", "tr",
   "true", "tty", "uname", "uniq", "wc", "whoami", "xargs", "yes"]

def programDirectories : List Place :=
  [["bin"], ["usr", "bin"]]

def isProgram (place : Place) : Bool :=
  programDirectories.contains place.dropLast && standardPrograms.contains (place.getLastD "")

def node? (tree : Tree) (place : Place) : Option Node :=
  match tree.entries.find? (·.1 == place) with
  | some (_, node) => some node
  | none =>
    if place = workingDirectory ∨ place ∈ standardDirectories then some .directory
    else if place ∈ standardFiles ∨ isProgram place then some (.file .empty)
    else none

def maxNameBytes : Nat := 255
def maxPathBytes : Nat := 4095

def walk (tree : Tree) (place : Place) : List String → Except PathFault Place
  | [] => .ok place
  | name :: rest =>
    match tree.node? place with
    | none => .error .notFound
    | some (.file _) => .error .notDirectory
    | some .directory =>
      if name = "" ∨ name = "." then walk tree place rest
      else if name = ".." then walk tree place.dropLast rest
      else if maxNameBytes < name.utf8ByteSize then .error .nameTooLong
      else if (tree.node? (place ++ [name])).isNone then .error .notFound
      else walk tree (place ++ [name]) rest

def names (cs : List Char) : List String :=
  (Text.fields '/' cs).map String.ofList

def route (path : String) : Place × List String :=
  match path.toList with
  | '/' :: rest => ([], names rest)
  | cs => (workingDirectory, names cs)

def resolve (tree : Tree) (path : String) : Except PathFault Place :=
  let cs := path.toList
  if cs.contains '\x00' then .error .nulInName
  else if cs.isEmpty then .error .notFound
  else if maxPathBytes < path.utf8ByteSize then .error .nameTooLong
  else
    let (start, names) := route path
    tree.walk start names

def nodeAt (tree : Tree) (path : String) : Except PathFault Node := do
  let place ← tree.resolve path
  match tree.node? place with
  | some node => .ok node
  | none => .error .notFound

def read (tree : Tree) (path : String) : Except PathFault ByteArray := do
  match ← tree.nodeAt path with
  | .file content => .ok content
  | .directory => .error .isDirectory

def kind? (tree : Tree) (path : String) : Option PathKind :=
  match tree.nodeAt path with
  | .ok .directory => some .directory
  | .ok (.file _) => some .file
  | .error _ => none

def maxArgumentBytes : Nat := 131071

/-- Starts the file at a place. Of all files only the standard programs may be executed. -/
def launchAt (args : List String) (place : Place) : Except PathFault Unit :=
  if !isProgram place then .error .permissionDenied
  else if args.any (maxArgumentBytes < ·.utf8ByteSize) then .error .argumentTooLong
  else .ok ()

/-- Starts the first file of a name in some directories. What may not be executed is passed over,
and is the reason only when nothing else turns up. -/
def search (tree : Tree) (program : String) (args : List String) :
    List Place → Except PathFault Unit
  | [] => .error .notFound
  | dir :: rest =>
    match tree.walk dir [program] >>= launchAt args with
    | .error .notFound => search tree program args rest
    | .error .permissionDenied =>
      match search tree program args rest with
      | .error .notFound => .error .permissionDenied
      | outcome => outcome
    | outcome => outcome

/-- A program with a slash in its name is a path, and any other is searched for. -/
def launch (tree : Tree) (program : String) (args : List String) : Except PathFault Unit :=
  if (program :: args).any (·.contains '\x00') then .error .nulInArgument
  else if program.contains '/' then tree.resolve program >>= launchAt args
  else if program.isEmpty then .error .notFound
  else tree.search program args programDirectories

def host (tree : Tree) : Host where
  read := tree.read
  kind? := tree.kind?
  launch := tree.launch

def erase (tree : Tree) (place : Place) : Tree :=
  ⟨tree.entries.filter fun e => !place.isPrefixOf e.1⟩

def makeDirectory (tree : Tree) (place : Place) : Tree :=
  if (tree.node? place).isSome then tree else ⟨tree.entries ++ [(place, .directory)]⟩

/-- Follows names from a place and makes the directories that are missing on the way. -/
def descend (tree : Tree) (place : Place) : List String → Place × Tree
  | [] => (place, tree)
  | name :: rest =>
    if name = "" ∨ name = "." then descend tree place rest
    else if name = ".." then descend tree place.dropLast rest
    else descend (tree.makeDirectory (place ++ [name])) (place ++ [name]) rest

def makePath (tree : Tree) (path : String) : Tree :=
  let (place, names) := route path
  (tree.descend place names).2

/-- Puts a node at a path in place of what is there, or takes that away. Directories on the way come
into being. -/
def write (tree : Tree) (path : String) (node : Option Node) : Tree :=
  let (start, names) := route path
  let names := names.filter fun n => n != "" && n != "."
  let (dir, tree) := tree.descend start names.dropLast
  let place := dir ++ names.getLast?.toList
  let rest := tree.erase place
  match node with
  | some node => ⟨rest.entries ++ [(place, node)]⟩
  | none => rest

end Tree

end Muezzin
