set_option autoImplicit false

/-! # Files and paths

A path names its file step by step. The steps are separated by slashes; a path that starts with a
slash starts at the root, any other one at the working directory. An empty step and `.` stay,
`..` goes to the directory around, and every other step goes to an entry. Each step must start
from a directory, also the empty one after a slash at the end.
-/

namespace Lox

/-- Why a path leads to no file that can be read. -/
inductive FileError
  | notFound
  | notDirectory
  | nameTooLong
  /-- The path leads to a directory. -/
  | isDirectory
  /-- Any other fault, by its number. -/
  | fault (code : Nat)
deriving DecidableEq, Inhabited

namespace FileError

/-- The number of a fault. -/
def code : FileError → Nat
  | notFound => 2
  | notDirectory => 20
  | nameTooLong => 36
  | isDirectory => 19
  | fault code => code

/-- The name of a fault. -/
def name : FileError → String
  | notFound => "No such file or directory"
  | notDirectory => "Not a directory"
  | nameTooLong => "File name too long"
  | isDirectory => "No such device"
  | fault _ => "Input/output error"

/-- What could not be done with the file: a directory can be opened, but has no contents. -/
def failedAction : FileError → String
  | isDirectory => "map"
  | _ => "open"

/-- The wording of a fault. -/
def message (e : FileError) : String := e.name ++ " (os error " ++ toString e.code ++ ")"

end FileError

/-- A file, or a directory with named entries. -/
inductive FileTree
  | file (contents : List UInt8)
  | directory (entries : List (String × FileTree))
deriving Inhabited

/-- A place in a tree: where it is, and the directories around it, the innermost first. -/
structure FilePlace where
  here : FileTree
  around : List FileTree
deriving Inhabited

namespace FilePlace

/-- The most bytes that a step of a path may have. -/
def maxStep : Nat := 255

/-- The most bytes that a path may have. -/
def maxPath : Nat := 4095

/-- The place after one step. -/
def step (p : FilePlace) (name : String) : Except FileError FilePlace :=
  match p.here with
  | .file _ => .error .notDirectory
  | .directory entries =>
    if name = "" || name = "." then .ok p
    else if name = ".." then
      match p.around with
      | [] => .ok p
      | outer :: around => .ok ⟨outer, around⟩
    else if maxStep < name.utf8ByteSize then .error .nameTooLong
    else
      match entries.lookup name with
      | some entry => .ok ⟨entry, p.here :: p.around⟩
      | none => .error .notFound

/-- The place after several steps. -/
def steps (p : FilePlace) : List String → Except FileError FilePlace
  | [] => .ok p
  | name :: names =>
    match p.step name with
    | .ok p => p.steps names
    | .error e => .error e

/-- The root of the tree in which a place is. -/
def root (p : FilePlace) : FilePlace := ⟨p.around.getLastD p.here, []⟩

/-- The characters of the steps of a path. -/
def splitSteps : List Char → List (List Char)
  | [] => [[]]
  | c :: cs =>
    match c == '/', splitSteps cs with
    | true, names => [] :: names
    | false, name :: names => (c :: name) :: names
    | false, [] => [[c]]

/-- The contents of the file that a path names, from a working directory on. -/
def read (p : FilePlace) (path : String) : Except FileError (List UInt8) :=
  if maxPath < path.utf8ByteSize then .error .nameTooLong
  else
    let start := if path.toList.head? = some '/' then p.root else p
    match start.steps ((splitSteps path.toList).map String.ofList) with
    | .ok ⟨.file contents, _⟩ => .ok contents
    | .ok ⟨.directory _, _⟩ => .error .isDirectory
    | .error e => .error e

end FilePlace

end Lox
