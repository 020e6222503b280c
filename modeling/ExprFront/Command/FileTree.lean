import ExprFront.Command.Path

/-!
# File trees

A command works in one directory of a tree of files. A path is followed name by name, and every
name before the last must be that of a directory, so that going up from a file is refused as
well. A file can be read; a file or a free name in a directory can be written.
-/

namespace ExprFront
set_option autoImplicit false

inductive FileTree.Item
  | file (bytes : List Nat)
  | directory
  /-- It reads as empty and takes all that is written. -/
  | sink
  deriving DecidableEq

/-- Items by their names from the root, and the working directory. -/
structure FileTree where
  items : List (List String × FileTree.Item)
  working : List String

namespace FileTree

/-- Where a walk along a path stands, and what is there, if anything. -/
structure Place where
  names : List String
  item? : Option Item
  deriving DecidableEq

/-- The item with the given names. Whatever leads to an item or to the working directory is a
directory. -/
def item? (t : FileTree) (names : List String) : Option Item :=
  match t.items.lookup names with
  | some item => some item
  | none =>
    if names.isPrefixOf t.working || t.items.any fun e => names.isPrefixOf e.1 then
      some .directory
    else none

def place (t : FileTree) (names : List String) : Place :=
  ⟨names, t.item? names⟩

/-! ## Walks -/

/-- One step from a place that must be a directory. Above the root is the root. -/
def step (t : FileTree) (here : Place) (name : String) : Except PathFault Place :=
  match here.item? with
  | none => .error .missing
  | some .directory =>
    if name = "." then .ok here
    else if name = ".." then .ok (t.place here.names.dropLast)
    else if Path.nameLimit < name.utf8ByteSize then .error .tooLong
    else .ok (t.place (here.names ++ [name]))
  | some _ => .error .notDirectory

def walk (t : FileTree) : Place → List String → Except PathFault Place
  | here, [] => .ok here
  | here, name :: names => do
    let next ← t.step here name
    t.walk next names

def start (t : FileTree) (p : Path) : Place :=
  t.place (if p.absolute then [] else t.working)

/-! ## Reading and writing -/

def read (t : FileTree) (text : String) : Except PathFault (List Nat) := do
  let p ← Path.read text
  let here ← t.walk (t.start p) p.names
  match here.item? with
  | none => .error .missing
  | some .directory => .error .isDirectory
  | some item =>
    if p.slashed then .error .notDirectory
    else
      match item with
      | .file bytes => .ok bytes
      | _ => .ok []

/-- The place at which a path is written. After a slash at the end the last name is not looked
at, since only a directory could have it. -/
def target (t : FileTree) (text : String) : Except PathFault Place := do
  let p ← Path.read text
  let parent ← t.walk (t.start p) p.names.dropLast
  let here ← t.step parent (if p.slashed then "." else p.names.getLast?.getD ".")
  match here.item? with
  | some .directory => .error .isDirectory
  | _ => .ok here

def refusal? (t : FileTree) (text : String) : Option PathFault :=
  match t.target text with
  | .ok _ => none
  | .error fault => some fault

/-- The name in the working directory of the file that comes to be when a path is written, if
one does. -/
def created? (t : FileTree) (text : String) : Option String :=
  match t.target text with
  | .ok ⟨names, none⟩ =>
    if t.working.isPrefixOf names then
      some (String.intercalate "/" (names.drop t.working.length))
    else none
  | _ => none

/-! ## Fresh working directories -/

def standardDirectories : List String :=
  ["bin", "boot", "dev", "etc", "home", "lib", "media", "mnt", "opt", "proc", "root", "run",
    "sbin", "srv", "sys", "tmp", "usr", "var"]

/-- A tree whose working directory holds the given files and nothing else. The directory has the
empty name, which no path can hold, so it cannot be entered by name. -/
def fresh (files : List (String × List Nat)) : FileTree :=
  let working := ["tmp", ""]
  { items :=
      files.map (fun f => (working ++ (Path.namesOf f.1).filter (· ≠ "."), .file f.2)) ++
        (["dev", "null"], .sink) :: standardDirectories.map fun name => ([name], .directory)
    working := working }

end FileTree

end ExprFront
