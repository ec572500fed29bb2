import ClosureLift.Command.Path
import ClosureLift.Sorted

/-!
The files that a command works on, as a tree under a root. A place is the list of names that leads
to it from the root; relative paths start at the current directory. Directories are implied by what
lies in them, so only the others have to be listed. There are no links, so that a step leads where
its name says, and every file holds a text: contents that are not UTF-8, which could not be read,
are left out, as is everything else that keeps a system from serving a request.
-/
namespace ClosureLift

abbrev Place := List String

structure FileTree where
  files : List (Place × String)
  dirs : List Place
  current : Place

inductive FileError where
  | notFound
  | notDirectory
  | isDirectory
  | alreadyExists
  | nameTooLong
  deriving DecidableEq

def FileError.message : FileError → String
  | .notFound => "No such file or directory (os error 2)"
  | .notDirectory => "Not a directory (os error 20)"
  | .isDirectory => "Is a directory (os error 21)"
  | .alreadyExists => "File exists (os error 17)"
  | .nameTooLong => "File name too long (os error 36)"

namespace FileTree

def isFile (tree : FileTree) (place : Place) : Bool := tree.files.any (·.1 == place)

def isDir (tree : FileTree) (place : Place) : Bool :=
  place.isEmpty || tree.dirs.any (place.isPrefixOf ·) ||
    tree.files.any fun f => place.isPrefixOf f.1 && place != f.1

def start (tree : FileTree) (path : String) : Place :=
  if path.startsWith '/' then [] else tree.current

/-- Where one more step leads; the parent of the root is the root. -/
def step (place : Place) (name : String) : Place :=
  if Path.isIdle name then place else if name = ".." then place.dropLast else place ++ [name]

def spelled (tree : FileTree) (path : String) : Place :=
  (Path.steps path).foldl step (tree.start path)

def nameLimit : Nat := 255

def pathLimit : Nat := 4095

def follow (tree : FileTree) (place : Place) (name : String) : Except FileError Place :=
  if !tree.isDir place then .error (if tree.isFile place then .notDirectory else .notFound)
  else if nameLimit < name.utf8ByteSize then .error .nameTooLong
  else .ok (step place name)

/-- The place that some steps of a path lead to. All of them but the last must be there. -/
def followAll (tree : FileTree) (path : String) (steps : List String) : Except FileError Place :=
  if path = "" then .error .notFound
  else if pathLimit < path.utf8ByteSize then .error .nameTooLong
  else steps.foldlM tree.follow (tree.start path)

def resolve (tree : FileTree) (path : String) : Except FileError Place :=
  tree.followAll path (Path.steps path)

def leadsToFile (tree : FileTree) (path : String) : Bool :=
  match tree.resolve path with
  | .ok place => tree.isFile place
  | .error _ => false

def leadsToDir (tree : FileTree) (path : String) : Bool :=
  match tree.resolve path with
  | .ok place => tree.isDir place
  | .error _ => false

def read (tree : FileTree) (path : String) : Except FileError String := do
  let place ← tree.resolve path
  match tree.files.lookup place with
  | some text => .ok text
  | none => .error (if tree.isDir place then .isDirectory else .notFound)

def makeDir (tree : FileTree) (path : String) : Except FileError FileTree := do
  let place ← tree.resolve path
  if tree.isFile place || tree.isDir place then .error .alreadyExists
  else return { tree with dirs := tree.dirs ++ [place] }

def settle (tree : FileTree) (path : String) : Except FileError FileTree → Except FileError FileTree
  | .ok tree => .ok tree
  | .error e => if tree.leadsToDir path then .ok tree else .error e

/-- Makes a directory, and before it those around it that are missing, which are given
outermost last. -/
def makeDirs (tree : FileTree) : List String → Except FileError FileTree
  | [] => .ok tree
  | path :: around =>
    match tree.makeDir path with
    | .ok tree => .ok tree
    | .error .notFound => do
      let tree ← tree.makeDirs around
      tree.settle path (tree.makeDir path)
    | .error e => tree.settle path (.error e)

def createDir (tree : FileTree) (path : String) : Except FileError FileTree :=
  tree.makeDirs (path :: Path.ancestors path)

/-- Puts a file into an existing directory, in place of what the file held before. A path that ends
with a slash means a directory, whatever its last name stands for. -/
def write (tree : FileTree) (path text : String) : Except FileError FileTree := do
  let steps := Path.stepsToEnd path
  let steps := if path.endsWith '/' then steps.dropLast ++ ["."] else steps
  let place ← tree.followAll path steps
  if tree.isDir place then .error .isDirectory
  else return { tree with files := tree.files.filter (·.1 != place) ++ [(place, text)] }

/-- What lies under a directory, each file by the names that lead to it from there. The content of a
directory stands where its name belongs among its siblings. -/
def under (tree : FileTree) (place : Place) : List Place :=
  sorted (List.compareLex compare) (tree.files.filterMap fun f =>
    if place.isPrefixOf f.1 then some (f.1.drop place.length) else none)

def changes (tree before : FileTree) : List (Place × String) :=
  tree.files.filter fun f => before.files.lookup f.1 != some f.2

end FileTree

end ClosureLift
