import Outline.Tree.Rose

/-!
# Ordered trees that grow in place

A `Tree` keeps its values in one array in the order in which they were added, and names a value
by its place there; the root is named `0`.  Each entry knows the entry above it and, in order,
the entries directly below it, so that a query can go up as well as down.

Names are stored in 32 bits.  A tree may outgrow them: behind `Tree.width` entries a new one gets
a name that is taken.

* `Tree.push` adds an entry below another one.
* `Tree.adopt` moves a run of trailing children one level down.
* `Tree.visit` and `Tree.transform` walk the tree from the top down and from left to right.
* `Tree.rose?` reads the nested form of the entries below a given one, and `Tree.ofRose` builds
  the tree of a nested form.
-/

namespace Outline

/-- One entry of a `Tree`. -/
structure Tree.Entry (α : Type) where
  /-- The value of the entry. -/
  value : α
  /-- The entry above, if there is one. -/
  parent : Option Nat
  /-- The entries directly below, in order. -/
  children : List Nat
  deriving Repr, Inhabited

/-- An ordered tree whose entries are named by their order of arrival. -/
structure Tree (α : Type) where
  /-- The entry that every other entry lies below. -/
  root : Tree.Entry α
  /-- The other entries: the one named `n + 1` is at place `n`. -/
  rest : Array (Tree.Entry α)
  deriving Repr

namespace Tree

variable {α β : Type}

/-! ## Building and looking up -/

/-- The tree that holds one value. -/
def singleton (a : α) : Tree α where
  root := { value := a, parent := none, children := [] }
  rest := #[]

/-- The number of entries, the root among them. -/
def size (t : Tree α) : Nat := t.rest.size + 1

/-- Whether the root is the only entry. -/
def isEmpty (t : Tree α) : Bool := t.rest.isEmpty

/-- The entry named `n`. -/
def entry? (t : Tree α) : Nat → Option (Entry α)
  | 0 => some t.root
  | n + 1 => t.rest[n]?

/-- The value of the entry named `n`. -/
def value? (t : Tree α) (n : Nat) : Option α := (t.entry? n).map (·.value)

/-- The entry above the one named `n`. -/
def parent? (t : Tree α) (n : Nat) : Option Nat := (t.entry? n).bind (·.parent)

/-- The entries directly below the one named `n`. -/
def children (t : Tree α) (n : Nat) : List Nat := ((t.entry? n).map (·.children)).getD []

/-- Changes the entry named `n`. -/
def modify (t : Tree α) (f : Entry α → Entry α) : Nat → Tree α
  | 0 => { t with root := f t.root }
  | n + 1 => { t with rest := t.rest.modify n f }

/-- Replaces the value of the entry named `n`. -/
def set (t : Tree α) (n : Nat) (a : α) : Tree α := t.modify (fun e => { e with value := a }) n

/-- The number of names that there are. -/
def width : Nat := UInt32.size

/-- The name that the next entry gets: the number of entries, cut to 32 bits. -/
def nextName (t : Tree α) : Nat := t.size % width

/-- Adds `a` as the last child of the entry named `parent`. -/
def push (t : Tree α) (parent : Nat) (a : α) : Tree α :=
  let grown := { t with rest := t.rest.push { value := a, parent := some parent, children := [] } }
  grown.modify (fun e => { e with children := e.children ++ [t.nextName] }) parent

/-! ## Moving trailing children -/

/-- Splits `children` into a first part and the longest trailing run of names that satisfy `p`
or are equal to `target`. -/
def trailingRun (p : Nat → Bool) (target : Nat) (children : List Nat) : List Nat × List Nat :=
  let back := children.reverse
  let inside := fun n => n == target || p n
  ((back.dropWhile inside).reverse, (back.takeWhile inside).reverse)

/-- Moves the trailing children of `source` that satisfy `p` to the front of the children of
`target`, in their old order.  The entry `target` itself stays where it is and does not end the
run.  Answers the number of entries moved. -/
def adopt (t : Tree α) (source target : Nat) (p : α → Bool) : Tree α × Nat :=
  let inside := fun n => ((t.value? n).map p).getD false
  let (kept, run) := trailingRun inside target (t.children source)
  let moved := run.erase target
  let kept := if run.contains target then kept ++ [target] else kept
  let t := t.modify (fun e => { e with children := kept }) source
  let t := moved.foldl (fun t n => t.modify (fun e => { e with parent := some target }) n) t
  (t.modify (fun e => { e with children := moved ++ e.children }) target, moved.length)

/-! ## Looking up and walking down -/

/-- The nearest entry above `n`, at most `depth` levels up, whose value satisfies `p`. -/
def ancestor? (t : Tree α) (p : α → Bool) : Nat → Nat → Option Nat
  | 0, _ => none
  | depth + 1, n =>
    match t.parent? n with
    | none => none
    | some above =>
      if ((t.value? above).map p).getD false then some above else t.ancestor? p depth above

/-- What a walk reports of an entry. -/
structure Visit (α : Type) where
  /-- The name of the entry. -/
  name : Nat
  /-- Its value. -/
  value : α
  /-- Its depth below the start of the walk. -/
  depth : Nat
  /-- The entry above it. -/
  parent : Option Nat
  deriving Repr

/-- Walks over the entries of a stack of names and depths, the first one first, each followed by
the entries below it.  The first argument bounds the number of steps. -/
def visitStack (t : Tree α) : Nat → List (Nat × Nat) → List (Visit α)
  | 0, _ => []
  | _ + 1, [] => []
  | steps + 1, (n, depth) :: stack =>
    match t.entry? n with
    | none => t.visitStack steps stack
    | some e =>
      ⟨n, e.value, depth, e.parent⟩ ::
        t.visitStack steps (e.children.map (fun c => (c, depth + 1)) ++ stack)

/-- The entries at and below `start`, from the top down and from left to right.  A tree has at
most `size` of them. -/
def visit (t : Tree α) (start : Nat) : List (Visit α) := t.visitStack t.size [(start, 0)]

section Transform

variable {m : Type → Type} [Monad m]

/-- Adds the new values of a stack of entries of `t`, each paired with its new parent, to `out`.
The first argument bounds the number of steps. -/
def transformStack (t : Tree α) (f : α → Option β → m β) :
    Nat → List (Nat × Nat) → Tree β → m (Tree β)
  | 0, _, out => pure out
  | _ + 1, [], out => pure out
  | steps + 1, (n, above) :: stack, out =>
    match t.entry? n with
    | none => t.transformStack f steps stack out
    | some e => do
      let b ← f e.value (out.value? above)
      t.transformStack f steps (e.children.map (fun c => (c, out.nextName)) ++ stack)
        (out.push above b)

/-- The tree of the same shape in which each value is what `f` makes of the old value and of the
new value above it, where `f` may have effects.  The new entries are named from the top down and
from left to right. -/
def transformM (t : Tree α) (f : α → Option β → m β) : m (Tree β) := do
  let b ← f t.root.value none
  t.transformStack f t.size (t.root.children.map (fun c => (c, 0))) (singleton b)

end Transform

/-- The tree of the same shape in which each value is `f` of the old value and of the new value
above it. -/
def transform (t : Tree α) (f : α → Option β → β) : Tree β :=
  Id.run (t.transformM fun a above => pure (f a above))

/-! ## Nested form -/

mutual

/-- Adds the trees of a list below the entry named `parent`, each from the top down. -/
def pushRoses (t : Tree α) (parent : Nat) : List (Rose α) → Tree α
  | [] => t
  | r :: rs => (t.pushRose parent r).pushRoses parent rs

/-- Adds a tree below the entry named `parent`, from the top down. -/
def pushRose (t : Tree α) (parent : Nat) : Rose α → Tree α
  | .node a rs => (t.push parent a).pushRoses t.nextName rs

end

/-- The tree of a nested form, named from the top down and from left to right. -/
def ofRose : Rose α → Tree α
  | .node a rs => (singleton a).pushRoses 0 rs

/-- The nested form of the entries at and below `n`, if it is at most `depth` levels deep. -/
def rose? (t : Tree α) : Nat → Nat → Option (Rose α)
  | 0, _ => none
  | depth + 1, n => do
    let e ← t.entry? n
    let below ← e.children.mapM (t.rose? depth)
    pure (.node e.value below)

/-- The nested form of the whole tree. -/
def toRose? (t : Tree α) : Option (Rose α) := t.rose? t.size 0

end Tree

end Outline
