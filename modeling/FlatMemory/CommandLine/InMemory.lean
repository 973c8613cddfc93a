import FlatMemory.CommandLine.Basic
import FlatMemory.CommandLine.FileTree

/-! # Running on a file tree

The command line with files that are held in memory. -/

namespace FlatMemory

namespace FileTree

/-- Do something that changes the tree, unless it fails. -/
def attempt (action : FileTree → Except FileError FileTree) :
    StateM FileTree (Except FileError Unit) := fun tree =>
  match action tree with
  | .ok changed => (.ok (), changed)
  | .error error => (.error error, tree)

def files : CommandLine.Files (StateM FileTree) where
  read path := return (← get).read path
  isDirectory path := return (← get).isDirectory path
  createDirectory path := attempt fun tree => tree.createDirectory path
  write path text := attempt fun tree => tree.write path text

def run (tree : FileTree) (arguments : List String) : CommandLine.Outcome × FileTree :=
  (CommandLine.run files arguments).run tree

end FileTree

end FlatMemory
