/-!
# Rose trees

A rose tree is a value with an ordered list of smaller trees below it.  It is the nested form of
an ordered tree; `Outline.Tree.Basic` has the indexed form.
-/

namespace Outline

/-- A value with an ordered list of subtrees. -/
inductive Rose (α : Type) where
  /-- The tree with the given value at the top and the given subtrees below it. -/
  | node (value : α) (children : List (Rose α))
  deriving Repr, Inhabited

namespace Rose

variable {α β : Type}

/-- The value at the top. -/
def value : Rose α → α
  | node a _ => a

/-- The subtrees directly below the top. -/
def children : Rose α → List (Rose α)
  | node _ ts => ts

@[simp] theorem value_node (a : α) (ts : List (Rose α)) : (node a ts).value = a := rfl

@[simp] theorem children_node (a : α) (ts : List (Rose α)) : (node a ts).children = ts := rfl

mutual

/-- The number of values in a tree. -/
def size : Rose α → Nat
  | node _ ts => 1 + sizeAll ts

/-- The number of values in a list of trees. -/
def sizeAll : List (Rose α) → Nat
  | [] => 0
  | t :: ts => t.size + sizeAll ts

end

mutual

/-- The values of a tree with their depths, from the top down and from left to right, where the
top is at depth `depth`. -/
def preorder (depth : Nat) : Rose α → List (Nat × α)
  | node a ts => (depth, a) :: preorderAll (depth + 1) ts

/-- The values of a list of trees with their depths, one tree after the other. -/
def preorderAll (depth : Nat) : List (Rose α) → List (Nat × α)
  | [] => []
  | t :: ts => t.preorder depth ++ preorderAll depth ts

end

/-- The values of a tree, from the top down and from left to right. -/
def values (t : Rose α) : List α := (t.preorder 0).map (·.2)

mutual

/-- The tree and every tree below it, from the top down and from left to right. -/
def subtrees : Rose α → List (Rose α)
  | node a ts => node a ts :: subtreesAll ts

/-- The trees of a list and every tree below them. -/
def subtreesAll : List (Rose α) → List (Rose α)
  | [] => []
  | t :: ts => t.subtrees ++ subtreesAll ts

end

@[simp] theorem subtrees_node (a : α) (ts : List (Rose α)) :
    (node a ts).subtrees = node a ts :: subtreesAll ts := by rw [subtrees]

@[simp] theorem subtreesAll_nil : subtreesAll ([] : List (Rose α)) = [] := by rw [subtreesAll]

@[simp] theorem subtreesAll_cons (t : Rose α) (ts : List (Rose α)) :
    subtreesAll (t :: ts) = t.subtrees ++ subtreesAll ts := by rw [subtreesAll]

mutual

/-- The tree of the same shape in which each value is `f` of the value and of the new value
above it. -/
def mapDown (f : α → Option β → β) (above : Option β) : Rose α → Rose β
  | node a ts => node (f a above) (mapDownAll f (f a above) ts)

/-- The trees of the same shapes below the new value `above`. -/
def mapDownAll (f : α → Option β → β) (above : β) : List (Rose α) → List (Rose β)
  | [] => []
  | t :: ts => t.mapDown f (some above) :: mapDownAll f above ts

end

section Effects

variable {m : Type → Type} [Monad m]

mutual

/-- The tree of the same shape in which each value is what `f` makes of the value and of the new
value above it.  The effects of `f` come in order, from the top down and from left to right. -/
def mapDownM (f : α → Option β → m β) (above : Option β) : Rose α → m (Rose β)
  | node a ts => do
    let b ← f a above
    let us ← mapDownAllM f b ts
    pure (node b us)

/-- The trees of the same shapes below the new value `above`, one tree after the other. -/
def mapDownAllM (f : α → Option β → m β) (above : β) : List (Rose α) → m (List (Rose β))
  | [] => pure []
  | t :: ts => do
    let u ← t.mapDownM f (some above)
    let us ← mapDownAllM f above ts
    pure (u :: us)

end

end Effects

end Rose

end Outline
