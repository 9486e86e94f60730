import RelQuery.NameMap
import RelQuery.Text.Basic

/-!
# Directories of files

A directory is known by its files, each under the steps that lead to it, with slashes between them.
A path is walked step by step.  Empty steps and single points stay where they are, two points go up,
and every other step but the last must lead to a directory.  A path may leave the directory; nothing
is known of what lies there.
-/

namespace RelQuery

/-- Why a file cannot be read or written, or a program cannot be started on it. -/
inductive FileFault where
  | notFound
  | permissionDenied
  | isDirectory
  | notDirectory
  | nameTooLong
  | nulInName
  | nulInArgument
  | notText
  deriving DecidableEq, Repr

def FileFault.message : FileFault → String
  | notFound => "No such file or directory (os error 2)"
  | permissionDenied => "Permission denied (os error 13)"
  | isDirectory => "Is a directory (os error 21)"
  | notDirectory => "Not a directory (os error 20)"
  | nameTooLong => "File name too long (os error 36)"
  | nulInName => "file name contained an unexpected NUL byte"
  | nulInArgument => "nul byte found in provided data"
  | notText => "stream did not contain valid UTF-8"

/-- Where a path leads: to a file, to a directory, to a place in a directory that is free for a
file, or to a place that is not known. -/
inductive Place where
  | file (name : String)
  | directory
  | free (name : String)
  | unknown
  deriving DecidableEq, Repr

/-- Files by the steps that lead to them. -/
structure Directory (α : Type) where
  files : NameMap α
  deriving DecidableEq, Repr

namespace Directory

variable {α : Type}

def empty : Directory α := ⟨.empty⟩

def maxStep : Nat := 255

def maxPath : Nat := 4095

/-- The name of a step inside a directory, which is named by its steps. -/
def inside (above : List (List Char)) (step : List Char) : String :=
  String.ofList (above.flatMap (· ++ ['/']) ++ step)

/-- Whether some file lies under a name. -/
def hasUnder (directory : Directory α) (name : String) : Bool :=
  directory.files.names.any fun file => (name.toList ++ ['/']).isPrefixOf file.toList

/-- Walks the steps of a path from a place, which is given by the steps to it, or not at all when it
lies outside. -/
def walk (directory : Directory α) : Option (List (List Char)) → List (List Char) →
    Except FileFault Place
  | _, [] => .ok .directory
  | here, step :: rest =>
    if step = [] ∨ step = ['.'] then directory.walk here rest
    else if step = ['.', '.'] then
      directory.walk (here.bind fun above => if above = [] then none else some above.dropLast) rest
    else if maxStep < Text.byteLength step then .error .nameTooLong
    else
      match here with
      | none => if rest = [] then .ok .unknown else .error .notFound
      | some above =>
        let name := inside above step
        if directory.files.contains name then
          if rest = [] then .ok (.file name) else .error .notDirectory
        else if directory.hasUnder name then directory.walk (some (above ++ [step])) rest
        else if rest = [] then .ok (.free name) else .error .notFound

/-- The steps of a path without the last one that has a name, which leave off in a directory. -/
def stepsAbove (steps : List (List Char)) : List (List Char) :=
  ((steps.reverse.dropWhile List.isEmpty).drop 1).reverse ++ [[]]

/-- Where a path leads after some change to its steps. -/
def locateWith (directory : Directory α) (change : List (List Char) → List (List Char))
    (path : String) : Except FileFault Place :=
  let cs := path.toList
  if cs.contains '\x00' then .error .nulInName
  else if cs = [] then .error .notFound
  else if maxPath < Text.byteLength cs then .error .nameTooLong
  else directory.walk (if cs.head? = some '/' then none else some []) (change (Text.pieces '/' cs))

def locate (directory : Directory α) (path : String) : Except FileFault Place :=
  directory.locateWith id path

def read (directory : Directory α) (path : String) : Except FileFault α := do
  match ← directory.locate path with
  | .file name =>
    match directory.files.get? name with
    | some file => .ok file
    | none => .error .notFound
  | .directory => .error .isDirectory
  | .free _ | .unknown => .error .notFound

/-- Puts a file at the end of a path, in place of the file that is there.  A path that ends in a
slash is taken for a directory, whatever lies there. -/
def write (directory : Directory α) (path : String) (file : α) :
    Except FileFault (Directory α) :=
  if path.toList.getLast? = some '/' then do
    let _ ← directory.locateWith stepsAbove path
    .error .isDirectory
  else do
    match ← directory.locate path with
    | .file name | .free name => .ok ⟨directory.files.insert name file⟩
    | .directory => .error .isDirectory
    | .unknown => .ok directory

end Directory

end RelQuery
