import Outline.FileTree.Basic

/-!
# Changes of file trees

The places that a path passes, and the difference between two trees.
-/

namespace Outline

namespace FileEntry

/-- Whether two entries are directories or files with the same bytes. -/
def same : FileEntry → FileEntry → Bool
  | file a, file b => a == b
  | directory, directory => true
  | _, _ => false

end FileEntry

namespace FileTree

/-- The places at which the steps of a path arrive from a given place. -/
def passedFrom (place : Place) : List PathComponent → List Place
  | [] => []
  | step :: steps =>
    let next := match step with
      | .root => []
      | .current => place
      | .parent => place.dropLast
      | .name s => place ++ [s]
    next :: passedFrom next steps

/-- The places that a path passes on its way. -/
def passed (t : FileTree) (p : Path) : List Place := passedFrom t.workingDirectory p.components

/-- The entries of a tree that are new or different in a later tree, in order. -/
def changes (before after : FileTree) : List (Place × FileEntry) :=
  after.entries.filter fun (place, entry) => !(before.entry? place).any (·.same entry)

end FileTree

end Outline
