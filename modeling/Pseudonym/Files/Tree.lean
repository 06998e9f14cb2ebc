/-
# Trees of files

A tree of files as a value. Every file and every directory in it has its place,
the list of names that lead to it from the root. A path starts at the root if
its first character is a slash, and in the working directory otherwise. It is
followed name by name: every name but the last has to be that of a directory,
`.` stays where it is, and `..` goes up, but not above the root.

A slash at the end of a path asks for a directory. For reading, the last name
then has to be that of a directory like all the others. A file is never written
to such a path, whatever its last name is.

Writing puts a file into a directory that exists, and never makes a directory.
-/
import Pseudonym.Files.Basic

namespace Pseudonym

/-- The working directory, the directories below the root, and the files with what they hold. -/
structure FileTree where
  here : List String
  directories : List (List String)
  files : List (List String × Content)
  deriving DecidableEq, Repr

/-- What a path leads to. -/
inductive FileTree.Target where
  | directory
  | file (place : List String) (content : Content)
  /-- A place where a file could be made. -/
  | free (place : List String)
  deriving DecidableEq, Repr

namespace FileTree

/-- What the file at a place holds. -/
def file? (t : FileTree) (place : List String) : Option Content := t.files.lookup place

/-- Whether there is a directory at a place. -/
def isDirectory (t : FileTree) (place : List String) : Bool :=
  place.isEmpty || t.directories.contains place

/-- The directories on the way to a place. -/
def above (place : List String) : List (List String) :=
  (List.range place.length).map place.take

/-- The tree of some directories and files below a working directory, with the directories on the
way to them. -/
def ofParts (here : List String) (directories : List (List String))
    (files : List (List String × Content)) : FileTree :=
  let directories := here :: directories.map (here ++ ·)
  let files := files.map fun f => (here ++ f.1, f.2)
  ⟨here, directories ++ (directories ++ files.map (·.1)).flatMap above, files⟩

/-- Makes something the content of the file at a place. -/
def put (content : Content) (place : List String) :
    List (List String × Content) → List (List String × Content)
  | [] => [(place, content)]
  | (p, old) :: rest =>
    if p = place then (p, content) :: rest else (p, old) :: put content place rest

/-- How many bytes a name has at most. -/
def maxName : Nat := 255

/-- How many bytes a path has at most. -/
def maxPath : Nat := 4095

/-- The names in a path. -/
def names (path : String) : List String :=
  ((path.toList.splitOn '/').filter (!·.isEmpty)).map .ofList

/-- Whether a path ends in a slash. -/
def endsInSlash (path : String) : Bool := path.toList.getLast? == some '/'

/-- Where a path starts: at the root, or in the working directory. -/
def start (t : FileTree) (path : String) : List String :=
  if path.toList.head? = some '/' then [] else t.here

/-- Whether a name is one of the two that lead to a directory from everywhere. -/
def isDots (name : String) : Bool := name == "." || name == ".."

/-- What a name in a directory stands for. -/
def look (t : FileTree) (directory : List String) (name : String) : Except FileError Target :=
  let place := directory ++ [name]
  if maxName < name.utf8ByteSize then .error .nameTooLong
  else if t.isDirectory place then .ok .directory
  else
    match t.file? place with
    | some content => .ok (.file place content)
    | none => .ok (.free place)

/-- The directory that a name leads to from a directory. The root is above itself. -/
def step (t : FileTree) (directory : List String) (name : String) :
    Except FileError (List String) :=
  if name = "." then .ok directory
  else if name = ".." then .ok directory.dropLast
  else do
    match ← t.look directory name with
    | .directory => .ok (directory ++ [name])
    | .file .. => .error .notDirectory
    | .free _ => .error .missing

/-- The directory that names lead to. -/
def enter (t : FileTree) (directory : List String) (names : List String) :
    Except FileError (List String) :=
  names.foldlM t.step directory

/-- Refuses a text that is no path at all. -/
def checkPath (path : String) : Except FileError Unit :=
  if path.toList.contains '\x00' then .error .zeroInName
  else if path = "" then .error .missing
  else if maxPath < path.utf8ByteSize then .error .nameTooLong
  else .ok ()

/-- What a path leads to. -/
def find (t : FileTree) (path : String) : Except FileError Target := do
  checkPath path
  match (names path).getLast? with
  | none => .ok .directory
  | some last =>
    let directory ← t.enter (t.start path) (names path).dropLast
    if endsInSlash path || isDots last then
      let _ ← t.step directory last
      .ok .directory
    else t.look directory last

/-- Whether there is a file or a directory at a path. -/
def has (t : FileTree) (path : String) : Bool :=
  match t.find path with
  | .ok .directory => true
  | .ok (.file ..) => true
  | _ => false

/-- The text of the file at a path. -/
def read (t : FileTree) (path : String) : Except FileError String := do
  match ← t.find path with
  | .directory => .error .isDirectory
  | .file _ (.text s) => .ok s
  | .file _ (.binary _) => .error .notText
  | .free _ => .error .missing

/-- The place where a text would be written for a path. -/
def target (t : FileTree) (path : String) : Except FileError (List String) := do
  checkPath path
  match (names path).getLast? with
  | none => .error .isDirectory
  | some last =>
    let directory ← t.enter (t.start path) (names path).dropLast
    if endsInSlash path || isDots last then .error .isDirectory
    else
      match ← t.look directory last with
      | .directory => .error .isDirectory
      | .file place _ => .ok place
      | .free place => .ok place

/-- The tree where the file at a path holds a text. -/
def write (t : FileTree) (path text : String) : Except FileError FileTree := do
  let place ← t.target path
  .ok { t with files := put (.text text) place t.files }

end FileTree

/-- A tree of files, and what was printed so far. -/
structure Desk where
  tree : FileTree
  printed : String
  reported : String
  deriving DecidableEq, Repr

namespace Desk

/-- A tree of files before anything is printed. -/
def new (tree : FileTree) : Desk := ⟨tree, "", ""⟩

/-- The host whose files are those of the tree. -/
def host : Host (StateM Desk) where
  has path := return (← get).tree.has path
  read path := return (← get).tree.read path
  write path text := do
    match (← get).tree.write path text with
    | .error e => return .error e
    | .ok tree => modify ({ · with tree }); return .ok ()
  print text := modify fun d => { d with printed := d.printed ++ text }
  report text := modify fun d => { d with reported := d.reported ++ text }

end Desk

end Pseudonym
