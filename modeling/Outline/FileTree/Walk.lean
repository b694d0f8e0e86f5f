import Outline.FileTree.IgnoreRule
import Outline.FileTree.SourceFile

/-!
# Walking over a directory

`FileTree.walk` is the walk of the program: it lists the entries below a directory.  An entry is
left out with everything else in a directory that is left out, and it is left out

* if its name starts with a dot and no rule keeps it,
* if the walk is told not to go on with it,
* if an ignore file in a directory around it says so.

The rules in `.ignore` files always count.  Those in `.gitignore` files and in the exclude file
of a repository count inside of a repository.  Directories that are nearer to an entry go before
those farther away.
-/

namespace Outline.FileTree

/-! ## Ignore rules -/

/-- The rules of the ignore file at a place. -/
def ignoreRules (t : FileTree) (place : Place) : List IgnoreRule :=
  match t.entry? place with
  | some (.file bytes) => ((String.fromUTF8? bytes).map IgnoreRule.ofText).getD []
  | _ => []

/-- Whether a directory is the top of a repository. -/
def isRepository (t : FileTree) (directory : Place) : Bool :=
  (t.entry? (directory ++ [".git"])).isSome

/-- The directories around a place, the nearest first. -/
def around (place : Place) : List Place := (List.range place.length).reverse.map place.take

/-- The directories of a list up to and with the first one that is the top of a repository. -/
def throughRepository (t : FileTree) : List Place → List Place
  | [] => []
  | d :: ds => d :: (if t.isRepository d then [] else throughRepository t ds)

/-- What the ignore files of one kind say about an entry; `name` leads from a directory to its
file. -/
def ruling? (t : FileTree) (directories : List Place) (name : List String) (place : Place)
    (isDirectory : Bool) : Option Bool :=
  directories.findSome? fun d =>
    IgnoreRule.decide? (t.ignoreRules (d ++ name)) ("/".intercalate (place.drop d.length))
      isDirectory

/-- Whether ignore files keep an entry or leave it out, if any of them is about it. -/
def keeps? (t : FileTree) (place : Place) (isDirectory : Bool) : Option Bool :=
  let directories := around place
  let inRepository :=
    if directories.any t.isRepository then t.throughRepository directories else []
  (t.ruling? directories [".ignore"] place isDirectory).or <|
    (t.ruling? inRepository [".gitignore"] place isDirectory).or <|
      t.ruling? inRepository [".git", "info", "exclude"] place isDirectory

/-! ## The walk -/

/-- Whether a name starts with a dot. -/
def isHidden (name : String) : Bool := name.toList.head? == some '.'

/-- What a walk from `root`, which leads to `top`, tells of the entry at a place. -/
def walkEntry (t : FileTree) (root : Path) (top place : Place) : WalkEntry :=
  let names := place.drop top.length
  { path := names.foldl Path.child root
    name := (place.getLast?).getD ""
    depth := names.length
    kind? := some (if t.isDirectoryAt place then .directory else .file) }

/-- Whether a walk leaves an entry out. -/
def isSkipped (t : FileTree) (enters : WalkEntry → Bool) (root : Path) (top place : Place) :
    Bool :=
  let e := t.walkEntry root top place
  match t.keeps? place (t.isDirectoryAt place) with
  | some false => true
  | some true => !enters e
  | none => isHidden e.name || !enters e

/-- Whether a walk reaches a place below its top. -/
def reaches (t : FileTree) (enters : WalkEntry → Bool) (root : Path) (top place : Place) : Bool :=
  top.isPrefixOf place && top.length < place.length &&
    (List.range (place.length - top.length)).all fun n =>
      !t.isSkipped enters root top (place.take (top.length + n + 1))

/-- The entries below a directory. -/
def walk : Walker := fun t root enters =>
  match t.locate root with
  | .error e => [.error e.message]
  | .ok top => (t.entries.filter fun (place, _) => t.reaches enters root top place).map
      fun (place, _) => .ok (t.walkEntry root top place)

end Outline.FileTree
