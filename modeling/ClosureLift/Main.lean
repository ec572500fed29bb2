import ClosureLift.Command.Session

/-!
The program itself: loads the files that the command line speaks of, runs the command on them, and
brings what it wrote to disk.
-/
namespace ClosureLift

namespace FileTree

partial def addFromDisk (tree : FileTree) (place : Place) : IO FileTree := do
  let path := (← IO.currentDir) / ("/" ++ "/".intercalate place)
  if ← path.isDir then
    let mut tree := { tree with dirs := tree.dirs ++ [place] }
    for entry in ← path.readDir do
      tree ← tree.addFromDisk (place ++ [entry.fileName])
    return tree
  else if ← path.pathExists then
    return { tree with files := tree.files ++ [(place, ← IO.FS.readFile path)] }
  else
    return tree

def load (tree : FileTree) (path : String) : IO FileTree :=
  tree.addFromDisk (tree.spelled path)

def save (change : Place × String) : IO Unit := do
  let path := (← IO.currentDir) / ("/" ++ "/".intercalate change.1)
  if let some parent := path.parent then IO.FS.createDirAll parent
  IO.FS.writeFile path change.2

end FileTree

def Command.paths : Command → List String
  | .lift args => args.input :: args.output.toList ++ args.config.toList
  | .run args => args.input :: args.config.toList

def Command.input : Command → String
  | .lift args => args.input
  | .run args => args.input

def loadFor (args : List String) : IO FileTree := do
  let current := ((← IO.currentDir).toString.splitOn "/").filter (· != "")
  let empty : FileTree := ⟨[], [current], current⟩
  match readArguments args with
  | .error _ => return empty
  | .ok (command, _) =>
    let tree ← command.paths.foldlM FileTree.load empty
    tree.load (CommandM.settingsBeside tree command.input)

end ClosureLift

open ClosureLift in
def main (args : List String) : IO UInt32 := do
  let tree ← loadFor args
  let surroundings : Surroundings := ⟨.standard, "not a settings file", false⟩
  let outcome := runCommandLine surroundings args tree
  (outcome.tree.changes tree).forM FileTree.save
  (← IO.getStdout).putStr outcome.out
  (← IO.getStderr).putStr outcome.err
  return outcome.code.toUInt32
