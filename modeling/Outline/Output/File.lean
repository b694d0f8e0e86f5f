import Outline.Output.Destination
import Outline.Output.Format
import Outline.Output.Record

/-!
# Output files

What is written to each file: the declarations of all destinations that name it.  A path without
an extension gets the one of the format.

* `OutputFile.ofDestinations` lists the files, one for each path that a destination names.
-/

namespace Outline

/-- A file to be written. -/
structure OutputFile where
  /-- The path of the file. -/
  path : Path
  /-- The declarations in it. -/
  declarations : NameMap (Declaration ResolvedRef)

namespace OutputFile

/-- The document with the given declarations. -/
def document (declarations : NameMap (Declaration ResolvedRef)) : Data :=
  .record [("files", .record ((declarations.map (·.record ResolvedRef.record)).entries))]

/-- The text of the file as the printer writes it. -/
def printed (f : OutputFile) (printer : Printer) (style : OutputStyle) : Except String String :=
  style.print printer (document f.declarations)

/-- The declarations of a project that go to one of the given destinations. -/
def select (project : Project) (destinations : List Destination) :
    NameMap (Declaration ResolvedRef) :=
  project.declarations.filter fun _ d => destinations.any (·.selects d.fullName)

/-- Adds a destination to the group with its path, or starts a group for it; groups are in the
order of paths. -/
def addToGroups (d : Destination) :
    List (Path × List Destination) → List (Path × List Destination)
  | [] => [(d.path, [d])]
  | (path, group) :: groups =>
    match d.path.compare path with
    | .lt => (d.path, [d]) :: (path, group) :: groups
    | .eq => (path, group ++ [d]) :: groups
    | .gt => (path, group) :: addToGroups d groups

/-- The destinations with the same path, in the order of paths. -/
def groups (destinations : List Destination) : List (Path × List Destination) :=
  destinations.foldl (fun groups d => addToGroups d groups) []

/-- The file that is written for a path. -/
def target (path : Path) (format : OutputFormat) : Path :=
  if path.extension?.isSome then path else path.addExtension format.extension

/-- The files for a list of destinations, in the order of the paths that the destinations name. -/
def ofDestinations (project : Project) (format : OutputFormat) (destinations : List Destination) :
    List OutputFile :=
  (groups destinations).map fun (path, group) =>
    ⟨target path format, select project group⟩

end OutputFile

end Outline
