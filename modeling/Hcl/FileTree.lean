/-!
# File trees

Files and directories held in memory. A path is followed name by name from the root or from a
working directory, and the first name that leads nowhere says why.
-/

namespace Hcl

/-! ## Faults -/

inductive FileFault where
  | notFound
  | permissionDenied
  | notDirectory
  | isDirectory
  | nameTooLong
deriving DecidableEq, Repr

namespace FileFault

/-- The number by which operating systems know a fault. -/
def code : FileFault → Nat
  | notFound => 2
  | permissionDenied => 13
  | notDirectory => 20
  | isDirectory => 21
  | nameTooLong => 36

def describe : FileFault → String
  | notFound => "No such file or directory"
  | permissionDenied => "Permission denied"
  | notDirectory => "Not a directory"
  | isDirectory => "Is a directory"
  | nameTooLong => "File name too long"

def message (fault : FileFault) : String := s!"{fault.describe} (os error {fault.code})"

def ofCode? (code : Nat) : Option FileFault :=
  [notFound, permissionDenied, notDirectory, isDirectory, nameTooLong].find? (·.code = code)

end FileFault

/-! ## Trees -/

inductive FileTree where
  | file (text : String)
  /-- a name has at most one entry that counts, the first one -/
  | directory (entries : List (String × FileTree))

def maxPathBytes : Nat := 4095

def maxNameBytes : Nat := 255

def betweenSlashes : List Char → List (List Char)
  | [] => [[]]
  | c :: cs =>
    if c = '/' then [] :: betweenSlashes cs
    else
      match betweenSlashes cs with
      | [] => [[c]]
      | name :: names => (c :: name) :: names

/-- The names in a path. It is absolute if the first one is empty. -/
def pathNames (path : String) : List String := (betweenSlashes path.toList).map String.ofList

/-- Whether a name stands for the directory it is looked up in. -/
def isSameDirectory (name : String) : Bool := name = "" ∨ name = "."

namespace FileTree

/-- What is in a directory. Nothing is in a file. -/
def entries : FileTree → List (String × FileTree)
  | file _ => []
  | directory entries => entries

/-- The tree with `new` at the end of the path of `names`. Directories that the path needs are
made, and what was at its end is gone. -/
def put (new : FileTree) : (names : List String) → FileTree → FileTree
  | [], _ => new
  | name :: names, t =>
    if isSameDirectory name then put new names t
    else
      let inner := (t.entries.lookup name).getD (directory [])
      directory ((name, put new names inner) :: t.entries.filter (·.1 ≠ name))

/-- The tree of files and directories that are given with their absolute paths. -/
def ofPaths (files : List (String × FileTree)) : FileTree :=
  files.foldl (fun t (path, new) => put new (pathNames path) t) (directory [])

/-- Follows names from `here`. The directories above it are in `above`, the nearest one first;
there is nothing above the root, which is its own parent. -/
def follow (above : List FileTree) (here : FileTree) : List String → Except FileFault FileTree
  | [] => .ok here
  | name :: names =>
    match here with
    | file _ => .error .notDirectory
    | directory entries =>
      if isSameDirectory name then follow above here names
      else if name = ".." then
        match above with
        | [] => follow [] here names
        | parent :: above => follow above parent names
      else if maxNameBytes < name.utf8ByteSize then .error .nameTooLong
      else
        match entries.lookup name with
        | some next => follow (here :: above) next names
        | none => .error .notFound

/-- Finds what is at a path. One that is not absolute begins in the working directory. -/
def find (root : FileTree) (workingDirectory path : String) : Except FileFault FileTree :=
  if maxPathBytes < path.utf8ByteSize then .error .nameTooLong
  else if path.startsWith "/" then root.follow [] (pathNames path)
  else root.follow [] (pathNames workingDirectory ++ pathNames path)

def read (root : FileTree) (workingDirectory path : String) : Except FileFault String :=
  match root.find workingDirectory path with
  | .ok (file text) => .ok text
  | .ok (directory _) => .error .isDirectory
  | .error fault => .error fault

end FileTree

end Hcl
